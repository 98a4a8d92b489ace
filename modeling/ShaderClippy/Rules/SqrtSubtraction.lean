/-
  ShaderClippy.Rules.SqrtSubtraction

  **DOES AN OPERAND SUBTRACT?** (`sqrt_of_potentially_negative.cpp`)

  `can_round_negative` looks for a subtraction outside of all brackets. It does
  not ask the tree: it counts parentheses in the text, and takes a `-` for a
  subtraction unless one of a few operators stands in front of it.

  Other minus signs are taken for one too: in an exponent, in a subscript,
  behind `%`, `^`, `~`, `?`, `:` or a cast, in `--` and `-=` (`strayMinus`). And
  a subtraction behind `++` or `--` is not seen. So the scan is right exactly
  where the first does not happen without a subtraction, and the second not
  without another one (`subtractionLaw_iff`).
-/
import ShaderClippy.Hlsl.TokenText

namespace ShaderClippy.Rules.SqrtSubtraction

open Hlsl
open Munch (LexOK IsToken render)

/-! ## §1. The scan. -/

/-- The characters that `prev_was_op` remembers. -/
def kOperators : List Char := ['+', '-', '*', '/', ',', '<', '>', '=', '!', '&', '|']

/-- The loop of `can_round_negative`, from one character on. -/
def subtractionFrom (depth : Nat) (prevWasOp : Bool) : Text → Bool
  | [] => false
  | c :: cs =>
      if c = '(' then subtractionFrom (depth + 1) true cs
      else if c = ')' then subtractionFrom (depth - 1) false cs
      else if depth = 0 ∧ c = '-' ∧ prevWasOp = false then true
      else if isSpace c then subtractionFrom depth prevWasOp cs
      else subtractionFrom depth (kOperators.contains c) cs

/-- `can_round_negative`. -/
def canRoundNegative (arg : Text) : Bool := subtractionFrom 0 true arg

/-! ## §2. Subtractions of the tree, and other minus signs. -/

/-- A binary `-` that is not inside parentheses, arguments or a subscript. -/
def topSubtraction : Expr → Bool
  | .atom _ | .paren .. | .construct .. => false
  | .unary _ e | .suffix e _ | .apply e _ _ _ => topSubtraction e
  | .binary x op y => op.body == ['-'] || topSubtraction x || topSubtraction y
  | .cond c _ a _ b => topSubtraction c || topSubtraction a || topSubtraction b

/-- The last character is one of those. -/
def endsInOperator (s : Text) : Bool := s.getLast?.any kOperators.contains

/-- The last token of an expression ends so: it is a `++` or `--`. -/
def operandEndsInOperator (e : Expr) : Bool := e.toks.getLast?.any fun t => endsInOperator t.body

/-- One of these subtractions is no `-` behind `++` or `--`. -/
def shownSubtraction : Expr → Bool
  | .atom _ | .paren .. | .construct .. => false
  | .unary _ e | .suffix e _ | .apply e _ _ _ => shownSubtraction e
  | .binary x op y =>
      (op.body == ['-'] && !operandEndsInOperator x) || shownSubtraction x || shownSubtraction y
  | .cond c _ a _ b => shownSubtraction c || shownSubtraction a || shownSubtraction b

/-- A minus sign that is no such subtraction and is taken for one; `expected`:
what is in front of the expression asks for an operand. -/
def strayMinus (expected : Bool) : Expr → Bool
  | .atom t => t.body.contains '-'
  | .paren .. | .construct .. => false
  | .unary (.op t) e =>
      (t.body.head? == some '-' && !expected) || strayMinus (endsInOperator t.body) e
  | .unary (.cast ..) e => strayMinus false e
  | .binary x op y =>
      strayMinus expected x
        || (op.body.head? == some '-' && op.body != ['-'] && !operandEndsInOperator x)
        || strayMinus (endsInOperator op.body) y
  | .cond c _ a _ b => strayMinus expected c || strayMinus false a || strayMinus false b
  | .suffix e (.step t) =>
      strayMinus expected e || (t.body.head? == some '-' && !operandEndsInOperator e)
  | .suffix e _ => strayMinus expected e
  | .apply e l i _ =>
      strayMinus expected e || (l.body == ['['] && (strayMinus false i || shownSubtraction i))

/-- A subtraction that is shown is one. -/
theorem topSubtraction_of_shown {e : Expr} (h : shownSubtraction e = true) :
    topSubtraction e = true := by
  induction e with
  | atom => cases h
  | paren => cases h
  | construct => cases h
  | unary _ e ih => exact ih h
  | suffix e _ ih => exact ih h
  | apply e _ _ _ ih _ => exact ih h
  | binary x op y ihx ihy =>
      simp only [shownSubtraction, topSubtraction, Bool.or_eq_true, Bool.and_eq_true] at h ⊢
      rcases h with (h | h) | h
      · exact Or.inl (Or.inl h.1)
      · exact Or.inl (Or.inr (ihx h))
      · exact Or.inr (ihy h)
  | cond c q a k b ihc iha ihb =>
      simp only [shownSubtraction, topSubtraction, Bool.or_eq_true] at h ⊢
      rcases h with (h | h) | h
      · exact Or.inl (Or.inl (ihc h))
      · exact Or.inl (Or.inr (iha h))
      · exact Or.inr (ihb h)

/-! ## §3. The scan of a text without parentheses. -/

def NoParens (s : Text) : Prop := ∀ c ∈ s, c ≠ '(' ∧ c ≠ ')'

/-- What `prev_was_op` is behind a text. -/
def flagAfter (flag : Bool) (s : Text) : Bool :=
  s.foldl (fun flag c => if isSpace c then flag else kOperators.contains c) flag

theorem scan_append {s : Text} (hs : NoParens s) (depth : Nat) (rest : Text) :
    ∀ flag, subtractionFrom depth flag (s ++ rest)
      = (subtractionFrom depth flag s || subtractionFrom depth (flagAfter flag s) rest) := by
  induction s with
  | nil => intro flag; rfl
  | cons c s ih =>
      intro flag
      obtain ⟨hopen, hclose⟩ := hs c (List.mem_cons_self ..)
      have ih := ih fun d hd => hs d (List.mem_cons_of_mem _ hd)
      rw [List.cons_append, subtractionFrom, subtractionFrom, if_neg hopen, if_neg hclose,
        if_neg hopen, if_neg hclose, flagAfter, List.foldl_cons]
      by_cases hminus : depth = 0 ∧ c = '-' ∧ flag = false
      · rw [if_pos hminus, if_pos hminus, Bool.true_or]
      · rw [if_neg hminus, if_neg hminus]
        by_cases hspace : isSpace c = true
        · rw [if_pos hspace, if_pos hspace, if_pos hspace]
          exact ih flag
        · rw [if_neg hspace, if_neg hspace, if_neg hspace]
          exact ih _

/-- Inside parentheses nothing is found. -/
theorem scan_inside {s : Text} (hs : NoParens s) (depth : Nat) :
    ∀ flag, subtractionFrom (depth + 1) flag s = false := by
  induction s with
  | nil => intro flag; rfl
  | cons c s ih =>
      intro flag
      obtain ⟨hopen, hclose⟩ := hs c (List.mem_cons_self ..)
      have ih := ih fun d hd => hs d (List.mem_cons_of_mem _ hd)
      rw [subtractionFrom, if_neg hopen, if_neg hclose, if_neg fun h => absurd h.1 (Nat.succ_ne_zero _)]
      split <;> exact ih _

/-- Nor where there is no minus. -/
theorem scan_no_minus {s : Text} (hs : NoParens s) (hminus : '-' ∉ s) :
    ∀ depth flag, subtractionFrom depth flag s = false := by
  induction s with
  | nil => intro depth flag; rfl
  | cons c s ih =>
      intro depth flag
      obtain ⟨hopen, hclose⟩ := hs c (List.mem_cons_self ..)
      have ih := ih (fun d hd => hs d (List.mem_cons_of_mem _ hd))
        (fun h => hminus (List.mem_cons_of_mem _ h))
      have hc : c ≠ '-' := fun h => hminus (h ▸ List.mem_cons_self ..)
      rw [subtractionFrom, if_neg hopen, if_neg hclose, if_neg fun h => hc h.2.1]
      split <;> exact ih _ _

theorem flagAfter_blank {s : Text} (hs : Blank s) (flag : Bool) : flagAfter flag s = flag := by
  induction s generalizing flag with
  | nil => rfl
  | cons c s ih =>
      rw [flagAfter, List.foldl_cons, if_pos (hs c (List.mem_cons_self ..))]
      exact ih (fun d hd => hs d (List.mem_cons_of_mem _ hd)) flag

/-- Behind a text that ends with no blank, its last character counts. -/
theorem flagAfter_concat {c : Char} (hc : isSpace c = false) (s : Text) (flag : Bool) :
    flagAfter flag (s ++ [c]) = kOperators.contains c := by
  rw [flagAfter, List.foldl_append, List.foldl_cons, List.foldl_nil, if_neg (by rw [hc]; exact nofun)]

theorem blank_noParens {s : Text} (hs : Blank s) : NoParens s := by
  intro c hc
  constructor
  · rintro rfl
    exact absurd (hs _ hc) (by decide)
  · rintro rfl
    exact absurd (hs _ hc) (by decide)

/-- The blanks in front of a token do not count. -/
theorem scan_blank {s : Text} (hs : Blank s) (depth : Nat) (flag : Bool) (rest : Text) :
    subtractionFrom depth flag (s ++ rest) = subtractionFrom depth flag rest := by
  have hminus : '-' ∉ s := fun h => absurd (hs _ h) (by decide)
  rw [scan_append (blank_noParens hs), scan_no_minus (blank_noParens hs) hminus, flagAfter_blank hs,
    Bool.false_or]

/-! ## §4. The scan of a token. -/

variable {isType : Text → Bool}

/-- A token has no blank. -/
theorem not_space_of_isToken {body : Text} (h : IsToken rules body) : ∀ c ∈ body, isSpace c = false := by
  have hgrown : ∀ {cur w : Text}, Munch.Grown rules cur w → ∀ c ∈ w, isSpace c = false := by
    intro cur w
    induction w generalizing cur with
    | nil => exact fun _ => nofun
    | cons d w ih =>
        intro hg c hc
        rcases List.mem_cons.mp hc with rfl | hc
        · exact Munch.not_space_of_grows (R := rules) hg.1
        · exact ih hg.2 c hc
  exact hgrown h.2

/-- Behind a token its last character counts. -/
theorem flagAfter_token {body : Text} (h : IsToken rules body) (flag : Bool) :
    flagAfter flag body = endsInOperator body := by
  obtain hnil | ⟨s, c, rfl⟩ := List.eq_nil_or_concat body
  · exact absurd hnil h.1
  · rw [List.concat_eq_append, flagAfter_concat, endsInOperator, List.getLast?_concat, Option.any_some]
    exact not_space_of_isToken h c (by rw [List.concat_eq_append]; exact List.mem_concat_self)

/-- A token that is no parenthesis. -/
theorem scan_token {t : Token} (ht : NoParens t.body) (hlead : Blank t.lead)
    (h : IsToken rules t.body) (flag : Bool) (rest : Text) :
    subtractionFrom 0 flag (t.text ++ rest)
      = (subtractionFrom 0 flag t.body || subtractionFrom 0 (endsInOperator t.body) rest) := by
  rw [Munch.Lexeme.text, List.append_assoc, scan_blank hlead, scan_append ht, flagAfter_token h]

theorem flat_noParens {t : Token} (hk : isFlat (kind isType t) = true) (h : IsToken rules t.body) :
    NoParens t.body := by
  intro c hc
  have hno := flat_chars hk h c hc
  constructor
  · rintro rfl
    exact hno (by decide)
  · rintro rfl
    exact hno (by decide)

/-- A word has no minus. -/
theorem scan_word {t : Token} (hk : (kind isType t).isWord = true) (h : IsToken rules t.body)
    (flag : Bool) : subtractionFrom 0 flag t.body = false := by
  have hflat : isFlat (kind isType t) = true := by
    cases hkind : kind isType t <;> rw [hkind] at hk <;> first | rfl | cases hk
  refine scan_no_minus (flat_noParens hflat h) (fun hmem => ?_) 0 flag
  exact absurd (word_chars hk h '-' hmem) (by decide)

/-- The minus of an exponent is taken for a subtraction. -/
theorem scan_number {t : Token} (hk : kind isType t = .number) (h : IsToken rules t.body)
    (flag : Bool) : subtractionFrom 0 flag t.body = t.body.contains '-' := by
  have hno : NoParens t.body := @flat_noParens isType _ (by rw [hk]; rfl) h
  cases hminus : t.body.contains '-' with
  | false =>
      refine scan_no_minus hno (fun hmem => ?_) 0 flag
      rw [List.contains_iff_mem.mpr hmem] at hminus
      cases hminus
  | true =>
      -- the letter of the exponent stands in front of the first minus
      obtain ⟨s, u, hsplit⟩ := List.append_of_mem (List.contains_iff_mem.mp hminus)
      have hexponent : s.getLast?.any isExponent = true := by
        rcases number_split hk h hsplit with hword | hdot | hsign
        · exact absurd hword (by decide)
        · exact absurd hdot (by decide)
        · exact hsign.2
      obtain hnil | ⟨w, c, rfl⟩ := List.eq_nil_or_concat s
      · rw [hnil] at hexponent
        cases hexponent
      · rw [List.concat_eq_append, List.getLast?_concat, Option.any_some] at hexponent
        have hflag : isSpace c = false ∧ kOperators.contains c = false := by
          simp only [isExponent, Bool.or_eq_true, beq_iff_eq, or_assoc] at hexponent
          rcases hexponent with rfl | rfl | rfl | rfl <;> decide
        have hsub : NoParens (w ++ [c]) := fun d hd => hno d (by
          rw [hsplit, List.concat_eq_append]
          exact List.mem_append_left _ hd)
        rw [hsplit, List.concat_eq_append, scan_append hsub, flagAfter_concat hflag.1, hflag.2]
        show (_ || subtractionFrom 0 false ('-' :: u)) = true
        rw [Bool.or_eq_true]
        exact Or.inr rfl

/-- A symbol that is no bracket: only a minus in front counts. -/
theorem scan_symbol {t : Token} (hsymbol : (kind isType t).isSymbol = true)
    (hflat : isFlat (kind isType t) = true) (flag : Bool) :
    subtractionFrom 0 flag t.body = (t.body.head? == some '-' && !flag) := by
  have hall : (symbols.all fun e => !isFlat e.2 || [true, false].all fun flag =>
      subtractionFrom 0 flag e.1 == (e.1.head? == some '-' && !flag)) = true := by decide +kernel
  have hs := List.all_eq_true.mp hall _ (kindOf_symbol hsymbol)
  rw [show kindOf isType t.body = kind isType t from rfl, hflat, Bool.not_true, Bool.false_or] at hs
  have := List.all_eq_true.mp hs flag (by cases flag <;> decide)
  exact beq_iff_eq.mp this

/-! ## §5. The scan of an expression. -/

/-- Inside parentheses the scan finds nothing in these tokens. -/
def Crossed (depth : Nat) (ts : List Token) : Prop :=
  ∀ flag, ∃ flag', ∀ rest, subtractionFrom (depth + 1) flag (render ts ++ rest)
    = subtractionFrom (depth + 1) flag' rest

theorem crossed_append {depth : Nat} {ts us : List Token} (hts : Crossed depth ts)
    (hus : Crossed depth us) : Crossed depth (ts ++ us) := by
  intro flag
  obtain ⟨flag', h⟩ := hts flag
  obtain ⟨flag'', h'⟩ := hus flag'
  refine ⟨flag'', fun rest => ?_⟩
  rw [Munch.render_append, List.append_assoc, h, h']

theorem crossed_cons {depth : Nat} {t : Token} {ts : List Token} (ht : NoParens t.body)
    (hlead : Blank t.lead) (hts : Crossed depth ts) : Crossed depth (t :: ts) := by
  have hno : NoParens t.text := by
    intro c hc
    rcases List.mem_append.mp hc with hc | hc
    · exact blank_noParens hlead c hc
    · exact ht c hc
  refine @crossed_append _ [t] _ (fun flag => ⟨flagAfter flag t.text, fun rest => ?_⟩) hts
  rw [Munch.render_cons, Munch.render_nil, List.append_nil, scan_append hno, scan_inside hno,
    Bool.false_or]

theorem crossed_nil (depth : Nat) : Crossed depth [] := fun flag => ⟨flag, fun _ => rfl⟩

/-- A pair of parentheses, from outside. -/
theorem scan_parens {l r : Token} (hl : kind isType l = .openParen) (hr : kind isType r = .closeParen)
    (hlead : Blank l.lead) (hrlead : Blank r.lead) {depth : Nat} {ts : List Token}
    (h : Crossed depth ts) (flag : Bool) (rest : Text) :
    subtractionFrom depth flag (render (l :: (ts ++ [r])) ++ rest) = subtractionFrom depth false rest := by
  obtain ⟨flag', h⟩ := h true
  have hopen : ∀ u, subtractionFrom depth flag (l.text ++ u) = subtractionFrom (depth + 1) true u := by
    intro u
    rw [Munch.Lexeme.text, List.append_assoc, scan_blank hlead, body_openParen hl]
    rfl
  have hclose : subtractionFrom (depth + 1) flag' (r.text ++ rest) = subtractionFrom depth false rest := by
    rw [Munch.Lexeme.text, List.append_assoc, scan_blank hrlead, body_closeParen hr]
    rfl
  rw [Munch.render_cons, List.append_assoc, hopen, Munch.render_append, List.append_assoc, h,
    Munch.render_cons, Munch.render_nil, List.append_nil, hclose]

theorem crossed_parens {l r : Token} (hl : kind isType l = .openParen)
    (hr : kind isType r = .closeParen) (hlead : Blank l.lead) (hrlead : Blank r.lead) {depth : Nat}
    {ts : List Token} (h : Crossed (depth + 1) ts) : Crossed depth (l :: (ts ++ [r])) :=
  fun flag => ⟨false, fun rest => scan_parens hl hr hlead hrlead h flag rest⟩

/-- The tokens of a part of the text. -/
theorem token_of_lexOK {ts us : List Token} {t : Token} (h : LexOK rules (ts ++ t :: us)) :
    Blank t.lead ∧ IsToken rules t.body := by
  have ht := (Munch.lexOK_append.mp h).2.1
  exact ⟨ht.1, ht.2.1⟩

theorem noParens_of {t : Token} {k : Kind} (hk : kind isType t = k) (hflat : isFlat k = true)
    (h : IsToken rules t.body) : NoParens t.body := flat_noParens (by rw [hk, hflat]) h

theorem noParens_bracket {t : Token} (hk : t.body = ['['] ∨ t.body = [']']) : NoParens t.body := by
  unfold NoParens
  rcases hk with hk | hk <;> rw [hk, List.forall_mem_singleton] <;> decide

theorem flat_unary {t : Token} (h : (kind isType t).isUnary = true) :
    isFlat (kind isType t) = true ∧ (kind isType t).isSymbol = true := by
  cases hk : kind isType t <;> rw [hk] at h <;> first | exact ⟨rfl, rfl⟩ | cases h

theorem flat_operator {t : Token} {p : Prec} (h : (kind isType t).prec = some p) :
    isFlat (kind isType t) = true ∧ (kind isType t).isSymbol = true := by
  cases hk : kind isType t <;> rw [hk] at h <;> first | exact ⟨rfl, rfl⟩ | cases h

/-- **Inside parentheses nothing is found.** -/
theorem crossed_expr {e : Expr} (he : Part isType e) : ∀ depth, Crossed depth e.toks := by
  induction e with
  | atom t =>
      intro depth
      have ⟨hlead, ht⟩ := @token_of_lexOK [] _ _ he.2
      refine crossed_cons ?_ hlead (crossed_nil depth)
      rcases he.1 with hk | hk
      · exact noParens_of hk rfl ht
      · exact noParens_of hk rfl ht
  | paren l e r ih =>
      intro depth
      have ⟨hl, _, hr⟩ := he.1
      have hrlex : LexOK rules ((l :: e.toks) ++ [r]) := he.2
      exact crossed_parens hl hr (@token_of_lexOK [] _ _ he.2).1 (token_of_lexOK hrlex).1
        (ih (Part.fill (f := .paren l r) he) (depth + 1))
  | construct type l args r ih =>
      intro depth
      have ⟨htype, hl, _, hr⟩ := he.1
      have ⟨htlead, ht⟩ := @token_of_lexOK [] _ _ he.2
      have hllex : LexOK rules ([type] ++ l :: (args.toks ++ [r])) := he.2
      have hrlex : LexOK rules ((type :: l :: args.toks) ++ [r]) := he.2
      exact crossed_cons (noParens_of htype rfl ht) htlead
        (crossed_parens hl hr (token_of_lexOK hllex).1 (token_of_lexOK hrlex).1
          (ih (Part.fill (f := .construct type l r) he) (depth + 1)))
  | unary p e ih =>
      intro depth
      have hcrossed := ih (Part.fill (f := .unary p) he)
      cases p with
      | op t =>
          have ⟨hlead, ht⟩ := @token_of_lexOK [] _ _ he.2
          exact crossed_cons (flat_noParens (flat_unary he.1.1).1 ht) hlead (hcrossed depth)
      | cast l type r =>
          have ⟨⟨hl, htype, hr⟩, _⟩ := he.1
          have htlex : LexOK rules ([l] ++ type :: (r :: e.toks)) := he.2
          have hrlex : LexOK rules ([l, type] ++ r :: e.toks) := he.2
          have ⟨htlead, ht⟩ := token_of_lexOK htlex
          refine @crossed_append _ (l :: ([type] ++ [r])) _ ?_ (hcrossed depth)
          exact crossed_parens hl hr (@token_of_lexOK [] _ _ he.2).1 (token_of_lexOK hrlex).1
            (crossed_cons (noParens_of htype rfl ht) htlead (crossed_nil _))
  | binary x op y ihx ihy =>
      intro depth
      have ⟨p, hp, _⟩ := he.1
      have ⟨hlead, ht⟩ := token_of_lexOK he.2
      exact crossed_append (ihx (Part.fill (f := .left op y) he) depth)
        (crossed_cons (flat_noParens (flat_operator hp).1 ht) hlead
          (ihy (Part.fill (f := .right x op) he) depth))
  | cond c q a k b ihc iha ihb =>
      intro depth
      have ⟨hq, hk, _⟩ := he.1
      have hklex : LexOK rules ((c.toks ++ q :: a.toks) ++ k :: b.toks) := by
        rw [List.append_assoc]
        exact he.2
      have ⟨hqlead, hqt⟩ := token_of_lexOK he.2
      have ⟨hklead, hkt⟩ := token_of_lexOK hklex
      exact crossed_append (ihc (Part.fill (f := .test q a k b) he) depth)
        (crossed_cons (noParens_of hq rfl hqt) hqlead
          (crossed_append (iha (Part.fill (f := .consequence c q k b) he) depth)
            (crossed_cons (noParens_of hk rfl hkt) hklead
              (ihb (Part.fill (f := .alternative c q a k) he) depth))))
  | suffix e s ih =>
      intro depth
      refine crossed_append (ih (Part.fill (f := .suffix s) he) depth) ?_
      cases s with
      | step t =>
          have ⟨hlead, ht⟩ := token_of_lexOK he.2
          exact crossed_cons (noParens_of he.1.2.2 rfl ht) hlead (crossed_nil depth)
      | member dot name =>
          have hnlex : LexOK rules ((e.toks ++ [dot]) ++ [name]) := by
            rw [List.append_assoc]
            exact he.2
          have ⟨hdot, hname⟩ := he.1.2.2
          have ⟨hdlead, hdt⟩ := token_of_lexOK he.2
          have ⟨hnlead, hnt⟩ := token_of_lexOK hnlex
          have hflat : isFlat (kind isType name) = true := by
            cases hk : kind isType name <;> rw [hk] at hname <;> first | rfl | cases hname
          exact crossed_cons (noParens_of hdot rfl hdt) hdlead
            (crossed_cons (flat_noParens hflat hnt) hnlead (crossed_nil depth))
      | nullary l r =>
          have hrlex : LexOK rules ((e.toks ++ [l]) ++ [r]) := by
            rw [List.append_assoc]
            exact he.2
          have ⟨hl, hr⟩ := he.1.2.2
          exact @crossed_parens _ _ _ hl hr (token_of_lexOK he.2).1 (token_of_lexOK hrlex).1 _ []
            (crossed_nil _)
  | apply e l i r ihe ihi =>
      intro depth
      have hrlex : LexOK rules ((e.toks ++ l :: i.toks) ++ [r]) := by
        rw [List.append_assoc]
        exact he.2
      have hllead := (token_of_lexOK he.2).1
      have hrlead := (token_of_lexOK hrlex).1
      have hi := ihi (Part.fill (f := .argument e l r) he)
      refine crossed_append (ihe (Part.fill (f := .callee l i r) he) depth) ?_
      rcases he.1.2.2.2 with ⟨hl, hr⟩ | ⟨hl, hr⟩
      · exact crossed_parens hl hr hllead hrlead (hi (depth + 1))
      · exact crossed_cons (noParens_bracket (Or.inl (body_openBracket hl))) hllead
          (crossed_append (hi depth)
            (crossed_cons (noParens_bracket (Or.inr (body_closeBracket hr))) hrlead
              (crossed_nil depth)))

theorem operandEnds_concat (ts : List Token) (t : Token) {e : Expr} (h : e.toks = ts ++ [t]) :
    operandEndsInOperator e = endsInOperator t.body := by
  rw [operandEndsInOperator, h, List.getLast?_concat, Option.any_some]

/-- An expression ends as its last operand does. -/
theorem operandEnds_append (ts : List Token) {e y : Expr} (h : e.toks = ts ++ y.toks) :
    operandEndsInOperator e = operandEndsInOperator y := by
  rw [operandEndsInOperator, operandEndsInOperator, h,
    List.getLast?_append_of_ne_nil _ y.toks_ne_nil]

theorem ends_closeParen {r : Token} (hr : kind isType r = .closeParen) :
    endsInOperator r.body = false := by
  rw [body_closeParen hr]
  rfl

/-- A word holds no minus. -/
theorem word_no_minus {t : Token} (hk : (kind isType t).isWord = true) (h : IsToken rules t.body) :
    t.body.contains '-' = false := by
  rw [← Bool.not_eq_true, List.contains_iff_mem]
  intro hmem
  exact absurd (word_chars hk h '-' hmem) (by decide)

/-- One token that is no parenthesis, with what it is taken for. -/
theorem scan_flat {t : Token} (hk : isFlat (kind isType t) = true)
    (h : Blank t.lead ∧ IsToken rules t.body) {found flag : Bool}
    (hfound : subtractionFrom 0 flag t.body = found) (rest : Text) :
    subtractionFrom 0 flag (t.text ++ rest)
      = (found || subtractionFrom 0 (endsInOperator t.body) rest) := by
  rw [scan_token (flat_noParens hk h.2) h.1 h.2, hfound]

/-- **What the scan takes for a subtraction**: the subtractions that are shown,
and the other minus signs. -/
theorem scan_expr {e : Expr} (he : Part isType e) : ∀ flag rest,
    subtractionFrom 0 flag (render e.toks ++ rest)
      = (strayMinus flag e || shownSubtraction e
          || subtractionFrom 0 (operandEndsInOperator e) rest) := by
  induction e with
  | atom t =>
      intro flag rest
      have ht := @token_of_lexOK [] _ _ he.2
      rw [operandEnds_concat [] t rfl, Expr.toks, Munch.render_cons, Munch.render_nil, List.append_nil,
        strayMinus, shownSubtraction, Bool.or_false]
      rcases he.1 with hk | hk
      · have hword : (kind isType t).isWord = true := by rw [hk]; rfl
        exact @scan_flat isType _ (by rw [hk]; rfl) ht _ _
          ((scan_word hword ht.2 flag).trans (word_no_minus hword ht.2).symm) rest
      · exact @scan_flat isType _ (by rw [hk]; rfl) ht _ _ (scan_number hk ht.2 flag) rest
  | paren l e r ih =>
      intro flag rest
      obtain ⟨hl, _, hr⟩ := he.1
      have hrlex : LexOK rules ((l :: e.toks) ++ [r]) := he.2
      rw [operandEnds_concat (l :: e.toks) r rfl, ends_closeParen hr, strayMinus, shownSubtraction,
        Bool.or_false, Bool.false_or]
      exact scan_parens hl hr (@token_of_lexOK [] _ _ he.2).1 (token_of_lexOK hrlex).1
        (crossed_expr (Part.fill (f := .paren l r) he) 0) flag rest
  | construct type l args r ih =>
      intro flag rest
      obtain ⟨htype, hl, _, hr⟩ := he.1
      have ht := @token_of_lexOK [] _ _ he.2
      have hllex : LexOK rules ([type] ++ l :: (args.toks ++ [r])) := he.2
      have hrlex : LexOK rules ((type :: l :: args.toks) ++ [r]) := he.2
      have hword : (kind isType type).isWord = true := by rw [htype]; rfl
      rw [operandEnds_concat (type :: l :: args.toks) r rfl, ends_closeParen hr, strayMinus,
        shownSubtraction, Bool.or_false, Bool.false_or, Expr.toks, Munch.render_cons, List.append_assoc,
        @scan_flat isType _ (by rw [htype]; rfl) ht _ _ (scan_word hword ht.2 flag), Bool.false_or]
      exact scan_parens hl hr (token_of_lexOK hllex).1 (token_of_lexOK hrlex).1
        (crossed_expr (Part.fill (f := .construct type l r) he) 0) _ rest
  | unary p e ih =>
      intro flag rest
      have hpart := Part.fill (f := .unary p) he
      cases p with
      | op t =>
          have ht := @token_of_lexOK [] _ _ he.2
          obtain ⟨hflat, hsymbol⟩ := flat_unary he.1.1
          rw [operandEnds_append [t] (y := e) rfl]
          show subtractionFrom 0 flag (render (t :: e.toks) ++ rest) = _
          rw [Munch.render_cons, List.append_assoc,
            scan_flat hflat ht (scan_symbol hsymbol hflat flag), ih hpart, strayMinus, shownSubtraction]
          simp only [Bool.or_assoc]
      | cast l type r =>
          obtain ⟨⟨hl, htype, hr⟩, _⟩ := he.1
          have htlex : LexOK rules ([l] ++ type :: (r :: e.toks)) := he.2
          have hrlex : LexOK rules ([l, type] ++ r :: e.toks) := he.2
          obtain ⟨htlead, ht⟩ := token_of_lexOK htlex
          rw [operandEnds_append [l, type, r] (y := e) rfl]
          show subtractionFrom 0 flag (render ((l :: ([type] ++ [r])) ++ e.toks) ++ rest) = _
          rw [Munch.render_append, List.append_assoc, scan_parens hl hr
            (@token_of_lexOK [] _ _ he.2).1 (token_of_lexOK hrlex).1
            (crossed_cons (noParens_of htype rfl ht) htlead (crossed_nil 0)), ih hpart]
          rfl
  | binary x op y ihx ihy =>
      intro flag rest
      obtain ⟨p, hp, _⟩ := he.1
      have hop := token_of_lexOK he.2
      obtain ⟨hflat, hsymbol⟩ := flat_operator hp
      rw [operandEnds_append (x.toks ++ [op]) (y := y) (by simp [Expr.toks]), Expr.toks,
        Munch.render_append, List.append_assoc, ihx (Part.fill (f := .left op y) he), Munch.render_cons,
        List.append_assoc, scan_flat hflat hop (scan_symbol hsymbol hflat _),
        ihy (Part.fill (f := .right x op) he), strayMinus, shownSubtraction]
      -- a binary `-` is a subtraction that is shown, every other minus is stray
      cases hminus : op.body == ['-'] with
      | true =>
          rw [beq_iff_eq.mp hminus]
          simp only [List.head?_cons, bne_self_eq_false, Bool.and_false, Bool.false_and, Bool.or_false,
            Bool.true_and, beq_self_eq_true]
          ac_rfl
      | false =>
          simp only [bne, hminus, Bool.not_false, Bool.and_true, Bool.false_and, Bool.false_or]
          ac_rfl
  | cond c q a k b ihc iha ihb =>
      intro flag rest
      obtain ⟨hq, hk, _⟩ := he.1
      have hklex : LexOK rules ((c.toks ++ q :: a.toks) ++ k :: b.toks) := by
        rw [List.append_assoc]
        exact he.2
      have hqt := token_of_lexOK he.2
      have hkt := token_of_lexOK hklex
      have hqscan : ∀ flag, subtractionFrom 0 flag q.body = false := by
        intro flag
        rw [body_question hq]
        rfl
      have hkscan : ∀ flag, subtractionFrom 0 flag k.body = false := by
        intro flag
        rw [body_colon hk]
        rfl
      rw [operandEnds_append (c.toks ++ q :: (a.toks ++ [k])) (y := b) (by simp [Expr.toks]), Expr.toks,
        Munch.render_append, List.append_assoc, ihc (Part.fill (f := .test q a k b) he),
        Munch.render_cons, List.append_assoc,
        @scan_flat isType _ (by rw [hq]; rfl) hqt _ _ (hqscan _), Munch.render_append,
        List.append_assoc, body_question hq, show endsInOperator ['?'] = false from rfl,
        iha (Part.fill (f := .consequence c q k b) he), Munch.render_cons, List.append_assoc,
        @scan_flat isType _ (by rw [hk]; rfl) hkt _ _ (hkscan _), body_colon hk,
        show endsInOperator [':'] = false from rfl,
        ihb (Part.fill (f := .alternative c q a k) he), strayMinus, shownSubtraction]
      simp only [Bool.false_or]
      ac_rfl
  | suffix e s ih =>
      intro flag rest
      have hpart := Part.fill (f := .suffix s) he
      cases s with
      | step t =>
          have ht := token_of_lexOK he.2
          have hk : kind isType t = .step := he.1.2.2
          have hflat : isFlat (kind isType t) = true := by rw [hk]; rfl
          have hsymbol : (kind isType t).isSymbol = true := by rw [hk]; rfl
          rw [operandEnds_concat e.toks t rfl, Expr.toks, Suffix.toks, Munch.render_append,
            List.append_assoc, ih hpart, Munch.render_cons, Munch.render_nil, List.append_nil,
            scan_flat hflat ht (scan_symbol hsymbol hflat _), strayMinus, shownSubtraction]
          ac_rfl
      | member dot name =>
          have hnlex : LexOK rules ((e.toks ++ [dot]) ++ [name]) := by
            rw [List.append_assoc]
            exact he.2
          obtain ⟨hdot, hname⟩ := he.1.2.2
          have hdt := token_of_lexOK he.2
          have hnt := token_of_lexOK hnlex
          have hflat : isFlat (kind isType name) = true := by
            cases hk : kind isType name <;> rw [hk] at hname <;> first | rfl | cases hname
          have hdscan : ∀ flag, subtractionFrom 0 flag dot.body = false := by
            intro flag
            rw [body_dot hdot]
            rfl
          rw [operandEnds_concat (e.toks ++ [dot]) name (by simp [Expr.toks, Suffix.toks]), Expr.toks,
            Suffix.toks, Munch.render_append, List.append_assoc, ih hpart, Munch.render_cons,
            List.append_assoc, @scan_flat isType _ (by rw [hdot]; rfl) hdt _ _ (hdscan _),
            Munch.render_cons, Munch.render_nil, List.append_nil,
            scan_flat hflat hnt (scan_word hname hnt.2 _), Bool.false_or, Bool.false_or]
          rfl
      | nullary l r =>
          have hrlex : LexOK rules ((e.toks ++ [l]) ++ [r]) := by
            rw [List.append_assoc]
            exact he.2
          obtain ⟨hl, hr⟩ := he.1.2.2
          rw [operandEnds_concat (e.toks ++ [l]) r (by simp [Expr.toks, Suffix.toks]), Expr.toks,
            Suffix.toks, Munch.render_append, List.append_assoc, ih hpart,
            show [l, r] = l :: ([] ++ [r]) from rfl,
            scan_parens hl hr (token_of_lexOK he.2).1 (token_of_lexOK hrlex).1 (crossed_nil 0),
            ends_closeParen hr]
          rfl
  | apply e l i r ihe ihi =>
      intro flag rest
      have hrlex : LexOK rules ((e.toks ++ l :: i.toks) ++ [r]) := by
        rw [List.append_assoc]
        exact he.2
      have hl := token_of_lexOK he.2
      have hr := token_of_lexOK hrlex
      have hi := Part.fill (f := .argument e l r) he
      rw [operandEnds_concat (e.toks ++ l :: i.toks) r (by simp [Expr.toks]), Expr.toks,
        Munch.render_append, List.append_assoc, ihe (Part.fill (f := .callee l i r) he), strayMinus,
        shownSubtraction]
      rcases he.1.2.2.2 with ⟨hlk, hrk⟩ | ⟨hlk, hrk⟩
      · -- a call
        rw [scan_parens hlk hrk hl.1 hr.1 (crossed_expr hi 0), ends_closeParen hrk, body_openParen hlk]
        simp only [show ((['('] : Text) == ['[']) = false from rfl, Bool.false_and, Bool.or_false]
      · -- a subscript: its minus signs are seen
        have hlscan : ∀ flag, subtractionFrom 0 flag l.body = false := by
          intro flag
          rw [body_openBracket hlk]
          rfl
        have hrscan : ∀ flag, subtractionFrom 0 flag r.body = false := by
          intro flag
          rw [body_closeBracket hrk]
          rfl
        rw [Munch.render_cons, List.append_assoc,
          scan_token (noParens_bracket (Or.inl (body_openBracket hlk))) hl.1 hl.2, hlscan,
          Munch.render_append, List.append_assoc, body_openBracket hlk,
          show endsInOperator ['['] = false from rfl, ihi hi, Munch.render_cons, Munch.render_nil,
          List.append_nil, scan_token (noParens_bracket (Or.inr (body_closeBracket hrk))) hr.1 hr.2,
          hrscan]
        simp only [Bool.false_or, show ((['['] : Text) == ['[']) = true from rfl, Bool.true_and]
        ac_rfl

/-! ## §6. The law. -/

/-- The law: a subtraction is reported exactly if there is one. -/
def SubtractionLaw (e : Expr) : Prop := canRoundNegative (nodeText e) = true ↔ topSubtraction e = true

theorem canRoundNegative_eq {e : Expr} (he : Part isType e) :
    canRoundNegative (nodeText e) = (strayMinus true e || shownSubtraction e) := by
  have hscan := scan_expr he true []
  rw [List.append_nil, render_toks, scan_blank (blank_lead he.2),
    show subtractionFrom 0 (operandEndsInOperator e) [] = false from rfl, Bool.or_false] at hscan
  exact hscan

/-- **When the scan is right**: without a subtraction, if there is no stray minus
either; with one, if one is shown or there is a stray minus. -/
theorem subtractionLaw_iff {e : Expr} (he : Part isType e) :
    SubtractionLaw e ↔
      if topSubtraction e = true then shownSubtraction e = true ∨ strayMinus true e = true
      else strayMinus true e = false := by
  unfold SubtractionLaw
  rw [canRoundNegative_eq he, Bool.or_eq_true]
  split
  case isTrue htop =>
    rw [iff_true_right htop]
    exact or_comm
  case isFalse htop =>
    rw [iff_false_right htop, not_or, Bool.not_eq_true, Bool.not_eq_true]
    constructor
    · exact fun h => h.1
    · intro hstray
      refine ⟨hstray, ?_⟩
      rw [← Bool.not_eq_true]
      exact fun hshown => htop (topSubtraction_of_shown hshown)

/-- `a - b`. -/
def difference : Expr :=
  .binary (.atom ⟨[], ['a']⟩) ⟨[' '], ['-']⟩ (.atom ⟨[' '], ['b']⟩)

/-- The law holds of `sqrt(a - b)`. -/
theorem subtractionLaw_iff_difference : SubtractionLaw difference :=
  (@subtractionLaw_iff (fun _ => false) _
    (part_of_text (show parseText _ "a - b".toList = some difference by decide +kernel))).mpr
    (by decide)

/-- `1e-5` is one token. -/
def smallLiteral : Expr := .atom ⟨[], "1e-5".toList⟩

/-- **The minus of an exponent is reported as a subtraction.** -/
theorem smallLiteral_reported : parseText (fun _ => false) "1e-5".toList = some smallLiteral
    ∧ ¬ SubtractionLaw smallLiteral := by
  refine ⟨by decide +kernel, fun hlaw => ?_⟩
  have hreported : canRoundNegative (nodeText smallLiteral) = true := by decide +kernel
  exact absurd (hlaw.mp hreported) (by decide)

end ShaderClippy.Rules.SqrtSubtraction
