/-
  ShaderClippy.Hlsl.TokenText

  **WHAT CHARACTERS TOKENS ARE MADE OF.**

  Rules that scan the text of an operand, character by character, see its tokens
  as characters. A word is made of word characters; a number of these, points
  and signs, and a sign stands behind the letter of an exponent; a parenthesis
  is a token of its own and no part of another one. Nowhere in the text of an
  expression does a comment begin (`noComment_of_parse`).
-/
import Mathlib
import ShaderClippy.Hlsl.Abutting

namespace ShaderClippy.Hlsl

open Munch (Lexeme LexOK IsToken Grown render render_cons)

variable {isType : Text → Bool}

/-! ## §1. Words. -/

/-- A word grows by characters of a word only. -/
theorem grown_word_chars {cur w : Text} (hcur : cur.head?.any isWordStart = true)
    (h : Grown rules cur w) : ∀ c ∈ w, isWordChar c = true := by
  induction w generalizing cur with
  | nil => exact nofun
  | cons c w ih =>
      obtain ⟨hgrows, hrest⟩ := h
      cases cur with
      | nil => cases hcur
      | cons d cur =>
          rw [List.head?_cons, Option.any_some] at hcur
          have hc : isWordChar c = true := by
            have hgrows' : grows (d :: cur) c = true := hgrows
            rw [grows, if_pos hcur] at hgrows'
            exact hgrows'
          intro x hx
          rcases List.mem_cons.mp hx with rfl | hx
          · exact hc
          · exact @ih (d :: cur ++ [c]) hcur hrest x hx

/-- **A word is made of word characters.** -/
theorem word_chars {body : Text} (hk : (kindOf isType body).isWord = true)
    (h : IsToken rules body) : ∀ c ∈ body, isWordChar c = true := by
  obtain ⟨d, t, rfl, hstart⟩ := kindOf_word hk
  intro c hc
  rcases List.mem_cons.mp hc with rfl | hc
  · exact isWordStart_isWordChar hstart
  · exact @grown_word_chars [d] _ (by rwa [List.head?_cons, Option.any_some]) h.2.2 c hc

/-! ## §2. Numbers. -/

/-- A character of a number: no sign, or a sign behind the letter of an exponent. -/
def NumberChar (before : Text) (c : Char) : Prop :=
  isWordChar c = true ∨ c = '.' ∨ ((c = '+' ∨ c = '-') ∧ before.getLast?.any isExponent = true)

/-- How a number goes on. -/
theorem grows_number_iff {cur : Text} (hnumber : isNumberText cur = true)
    (hstart : cur.head?.any isWordStart = false) {c : Char} (h : grows cur c = true) :
    NumberChar cur c := by
  cases cur with
  | nil => cases hnumber
  | cons d cur =>
      rw [List.head?_cons, Option.any_some] at hstart
      rw [grows, if_neg (by rw [hstart]; exact Bool.false_ne_true), if_pos hnumber, Bool.or_eq_true, Bool.or_eq_true,
        beq_iff_eq, Bool.and_eq_true, Bool.or_eq_true, beq_iff_eq, beq_iff_eq, or_assoc] at h
      exact h

/-- Every character of a number is one, with what is in front of it. -/
theorem number_split {body : Text} (hk : kindOf isType body = .number) (h : IsToken rules body)
    {s u : Text} {c : Char} (hsplit : body = s ++ c :: u) : NumberChar s c := by
  obtain ⟨d, t, hbody, hstart, hnumber⟩ := kindOf_number hk
  have hgrown : ∀ {cur s u : Text} {c : Char}, Grown rules cur (s ++ c :: u) →
      grows (cur ++ s) c = true := by
    intro cur s
    induction s generalizing cur with
    | nil =>
        intro u c hg
        rw [List.append_nil]
        exact hg.1
    | cons x s ih =>
        intro u c hg
        have := ih hg.2
        rwa [List.append_assoc, List.singleton_append] at this
  have hg : grows s c = true := by
    have := @hgrown [] _ _ _ (hsplit ▸ h.2)
    rwa [List.nil_append] at this
  cases s with
  | nil =>
      -- the first character is a point or a digit
      rw [hbody, List.nil_append] at hsplit
      obtain ⟨rfl, rfl⟩ := List.cons.inj hsplit
      by_cases hdot : d = '.'
      · exact Or.inr (Or.inl hdot)
      · rw [hbody, isNumberText_cons hdot] at hnumber
        refine Or.inl ?_
        rw [isWordChar, Char.isAlphanum, hnumber, Bool.or_true, Bool.true_or]
  | cons x s =>
      rw [hbody, List.cons_append] at hsplit
      obtain ⟨rfl, rfl⟩ := List.cons.inj hsplit
      by_cases hprefix : isNumberText (d :: s) = true
      · exact grows_number_iff hprefix hstart hg
      · -- only the point alone is no number yet
        have hdot : d = '.' := by
          by_contra hdot
          rw [isNumberText_cons hdot] at hprefix
          rw [hbody, isNumberText_cons hdot] at hnumber
          exact hprefix hnumber
        subst hdot
        cases s with
        | nil =>
            rw [hbody] at hnumber
            have hdigit : c.isDigit = true := hnumber
            refine Or.inl ?_
            rw [isWordChar, Char.isAlphanum, hdigit, Bool.or_true, Bool.true_or]
        | cons y s =>
            rw [hbody] at hnumber
            exact absurd hnumber hprefix

/-- The characters of a number. -/
theorem number_chars {body : Text} (hk : kindOf isType body = .number) (h : IsToken rules body) :
    ∀ c ∈ body, isWordChar c = true ∨ c = '.' ∨ c = '+' ∨ c = '-' := by
  intro c hc
  obtain ⟨s, u, hsplit⟩ := List.append_of_mem hc
  rcases number_split hk h hsplit with hword | hdot | ⟨hsign, _⟩
  · exact Or.inl hword
  · exact Or.inr (Or.inl hdot)
  · exact Or.inr (Or.inr hsign)

/-- A digit begins no word. -/
theorem digit_no_start {d : Char} (hd : d.isDigit = true) : isWordStart d = false := by
  simp only [Char.isDigit, Bool.and_eq_true, decide_eq_true_eq, ge_iff_le, UInt32.le_iff_toNat_le] at hd
  have hunderscore : d ≠ '_' := by
    rintro rfl
    simp at hd
  simp only [isWordStart, Char.isAlpha, Char.isUpper, Char.isLower, Bool.or_eq_false_iff, Bool.and_eq_false_iff,
    decide_eq_false_iff_not, beq_eq_false_iff_ne, ge_iff_le, UInt32.le_iff_toNat_le]
  simp at hd ⊢
  exact ⟨⟨by omega, by omega⟩, hunderscore⟩

/-- Every character goes on a number. -/
def NumberChars : Text → Text → Prop
  | _, [] => True
  | before, c :: s => NumberChar before c ∧ NumberChars (before ++ [c]) s

theorem numberChars_append {before s t : Text} :
    NumberChars before (s ++ t) ↔ NumberChars before s ∧ NumberChars (before ++ s) t := by
  induction s generalizing before with
  | nil =>
      rw [List.nil_append, List.append_nil]
      exact (and_iff_right trivial).symm
  | cons c s ih =>
      rw [List.cons_append, NumberChars, NumberChars, ih, and_assoc, List.append_assoc]
      rfl

/-- Points and the characters of words do. -/
theorem numberChars_flat {before s : Text} (h : ∀ x ∈ s, isWordChar x = true ∨ x = '.') :
    NumberChars before s := by
  induction s generalizing before with
  | nil => trivial
  | cons c s ih =>
      refine ⟨?_, ih fun x hx => h x (List.mem_cons_of_mem c hx)⟩
      obtain hc | hc := h c List.mem_cons_self
      · exact Or.inl hc
      · exact Or.inr (Or.inl hc)

/-- What begins with a digit and goes on like a number grows to one. -/
theorem grown_number {d : Char} (hd : d.isDigit = true) {cur s : Text} (h : NumberChars (d :: cur) s) :
    Grown rules (d :: cur) s := by
  induction s generalizing cur with
  | nil => trivial
  | cons c s ih =>
      obtain ⟨hc, hs⟩ := h
      have hnumber : isNumberText (d :: cur) = true := by
        rw [isNumberText_cons (by rintro rfl; cases hd)]
        exact hd
      refine ⟨?_, ih hs⟩
      show grows (d :: cur) c = true
      rw [grows, if_neg (by rw [digit_no_start hd]; exact Bool.false_ne_true), if_pos hnumber, Bool.or_eq_true, Bool.or_eq_true,
        beq_iff_eq, Bool.and_eq_true, Bool.or_eq_true, beq_iff_eq, beq_iff_eq, or_assoc]
      exact hc

/-- **A number, from its characters.** -/
theorem number_of_chars {d : Char} (hd : d.isDigit = true) {s : Text} (h : NumberChars [d] s) :
    IsToken rules (d :: s) ∧ kindOf isType (d :: s) = .number := by
  have hstart := digit_no_start hd
  have hnumber : isNumberText (d :: s) = true := by
    rw [isNumberText_cons (by rintro rfl; cases hd)]
    exact hd
  refine ⟨⟨List.cons_ne_nil _ _, ?_, grown_number hd h⟩, ?_⟩
  · show (!isSpace d) = true
    rw [Bool.not_eq_true']
    by_contra hspace
    obtain rfl | rfl | rfl | rfl := isSpace_cases (Bool.not_eq_false _ ▸ hspace) <;> cases hd
  · have hsymbol : (kindOf isType (d :: s)).isSymbol = false := by
      by_contra hsymbol
      obtain ⟨c, t, hbody, -, -, hno⟩ := symbol_head (kindOf_symbol (Bool.not_eq_false _ ▸ hsymbol))
      rw [← hbody, hnumber] at hno
      cases hno
    rw [kindOf_wordKind hsymbol, wordKind, if_neg (by rw [List.head?_cons, Option.any_some, hstart]; exact Bool.false_ne_true),
      if_pos hnumber]

/-! ## §3. Symbols. -/

/-- The text of a symbol that has one text. -/
theorem body_of_kind {t : Token} {k : Kind} {s : Text} (hk : kind isType t = k)
    (hsymbol : k.isSymbol = true) (hall : (symbols.all fun e => e.2 != k || e.1 == s) = true) :
    t.body = s := by
  have hmem := symbol_of_kind hk hsymbol
  have hs := List.all_eq_true.mp hall _ hmem
  rw [bne_self_eq_false, Bool.false_or, beq_iff_eq] at hs
  exact hs

theorem body_openParen {t : Token} (h : kind isType t = .openParen) : t.body = ['('] :=
  body_of_kind h rfl rfl

theorem body_closeParen {t : Token} (h : kind isType t = .closeParen) : t.body = [')'] :=
  body_of_kind h rfl rfl

theorem body_openBracket {t : Token} (h : kind isType t = .openBracket) : t.body = ['['] :=
  body_of_kind h rfl rfl

theorem body_closeBracket {t : Token} (h : kind isType t = .closeBracket) : t.body = [']'] :=
  body_of_kind h rfl rfl

theorem body_dot {t : Token} (h : kind isType t = .dot) : t.body = ['.'] := body_of_kind h rfl rfl

theorem body_question {t : Token} (h : kind isType t = .question) : t.body = ['?'] :=
  body_of_kind h rfl rfl

theorem body_colon {t : Token} (h : kind isType t = .colon) : t.body = [':'] := body_of_kind h rfl rfl

/-- What stands in an expression and is no bracket holds none of these. -/
def isFlat (k : Kind) : Bool :=
  k != .openParen && k != .closeParen && k != .openBracket && k != .closeBracket && k != .other

/-- **A bracket is a token of its own.** -/
theorem flat_chars {t : Token} (hk : isFlat (kind isType t) = true) (h : IsToken rules t.body) :
    ∀ c ∈ t.body, c ∉ (['(', ')', '[', ']'] : Text) := by
  have hword : ∀ {c : Char}, isWordChar c = true ∨ c = '.' ∨ c = '+' ∨ c = '-' →
      c ∉ (['(', ')', '[', ']'] : Text) := by
    intro c hc hmem
    have hall : ((['(', ')', '[', ']'] : Text).all fun d =>
        !isWordChar d && d != '.' && d != '+' && d != '-') = true := rfl
    have hs := List.all_eq_true.mp hall c hmem
    simp only [Bool.and_eq_true, Bool.not_eq_true', bne_iff_ne] at hs
    rcases hc with hc | hc | hc | hc
    · rw [hc] at hs
      exact absurd hs.1.1.1 nofun
    · exact hs.1.1.2 hc
    · exact hs.1.2 hc
    · exact hs.2 hc
  cases hsymbol : (kind isType t).isSymbol with
  | true =>
      have hall : (symbols.all fun e => !isFlat e.2
          || e.1.all fun c => !(['(', ')', '[', ']'] : Text).contains c) = true := rfl
      have hs := List.all_eq_true.mp hall _ (kindOf_symbol hsymbol)
      rw [show kindOf isType t.body = kind isType t from rfl, hk, Bool.not_true, Bool.false_or] at hs
      intro c hc hmem
      have := List.all_eq_true.mp hs c hc
      rw [List.contains_iff_mem.mpr hmem] at this
      cases this
  | false =>
      intro c hc
      cases hkind : kind isType t with
      | name => exact hword (Or.inl (@word_chars isType _ (by rw [show kindOf isType t.body = _ from hkind]; rfl) h c hc))
      | type => exact hword (Or.inl (@word_chars isType _ (by rw [show kindOf isType t.body = _ from hkind]; rfl) h c hc))
      | number => exact hword (@number_chars isType _ hkind h c hc)
      | other =>
          rw [hkind] at hk
          cases hk
      | _ =>
          rw [hkind] at hsymbol
          cases hsymbol

/-! ## §4. No comments. -/

/-- Two characters that open no comment. -/
def NoOpening (a b : Char) : Prop := a = '/' → b ≠ '/' ∧ b ≠ '*'

instance (a b : Char) : Decidable (NoOpening a b) := inferInstanceAs (Decidable (_ → _))

/-- The grammar knows all tokens of an expression. -/
theorem kind_of_mem_toks {e : Expr} (h : e.WellFormed isType) : ∀ t ∈ e.toks, kind isType t ≠ .other := by
  -- a token is of a kind that the grammar names
  have hkind : ∀ {t : Token} {k : Kind}, kind isType t = k → k ≠ .other → kind isType t ≠ .other := by
    rintro t _ rfl hk
    exact hk
  induction e with
  | atom t =>
      intro u hu
      rw [List.mem_singleton.mp hu]
      exact h.elim (fun h => hkind h (by decide)) fun h => hkind h (by decide)
  | paren l e r ih =>
      intro u hu
      simp only [Expr.toks, List.mem_cons, List.mem_append, List.not_mem_nil, or_false] at hu
      obtain rfl | hu | rfl := hu
      · exact hkind h.1 (by decide)
      · exact ih h.2.1 u hu
      · exact hkind h.2.2 (by decide)
  | construct type l args r ih =>
      intro u hu
      simp only [Expr.toks, List.mem_cons, List.mem_append, List.not_mem_nil, or_false] at hu
      obtain rfl | rfl | hu | rfl := hu
      · exact hkind h.1 (by decide)
      · exact hkind h.2.1 (by decide)
      · exact ih h.2.2.1 u hu
      · exact hkind h.2.2.2 (by decide)
  | unary p e ih =>
      intro u hu
      obtain hu | hu := List.mem_append.mp hu
      · cases p with
        | op t =>
            rw [List.mem_singleton.mp hu]
            intro hother
            have hunary : (kind isType t).isUnary = true := h.1
            rw [hother] at hunary
            cases hunary
        | cast l type r =>
            simp only [Prefix.toks, List.mem_cons, List.not_mem_nil, or_false] at hu
            obtain rfl | rfl | rfl := hu
            · exact hkind h.1.1 (by decide)
            · exact hkind h.1.2.1 (by decide)
            · exact hkind h.1.2.2 (by decide)
      · exact ih h.2.1 u hu
  | binary x op y ihx ihy =>
      obtain ⟨p, hop, hx, _, hy, _⟩ := h
      intro u hu
      simp only [Expr.toks, List.mem_cons, List.mem_append] at hu
      obtain hu | rfl | hu := hu
      · exact ihx hx u hu
      · intro hother
        rw [hother] at hop
        cases hop
      · exact ihy hy u hu
  | cond c q a k b ihc iha ihb =>
      obtain ⟨hq, hk, hc, _, ha, hb, _⟩ := h
      intro u hu
      simp only [Expr.toks, List.mem_cons, List.mem_append] at hu
      obtain hu | rfl | hu | rfl | hu := hu
      · exact ihc hc u hu
      · exact hkind hq (by decide)
      · exact iha ha u hu
      · exact hkind hk (by decide)
      · exact ihb hb u hu
  | suffix e s ih =>
      intro u hu
      obtain hu | hu := List.mem_append.mp hu
      · exact ih h.1 u hu
      · have hs := h.2.2
        cases s with
        | step t =>
            rw [List.mem_singleton.mp hu]
            exact hkind hs (by decide)
        | member dot name =>
            simp only [Suffix.toks, List.mem_cons, List.not_mem_nil, or_false] at hu
            obtain rfl | rfl := hu
            · exact hkind hs.1 (by decide)
            · intro hother
              have hword := hs.2
              rw [hother] at hword
              cases hword
        | nullary l r =>
            simp only [Suffix.toks, List.mem_cons, List.not_mem_nil, or_false] at hu
            obtain rfl | rfl := hu
            · exact hkind hs.1 (by decide)
            · exact hkind hs.2 (by decide)
  | apply e l i r ihe ihi =>
      obtain ⟨he, _, hi, hbrackets⟩ := h
      intro u hu
      simp only [Expr.toks, List.mem_cons, List.mem_append, List.not_mem_nil, or_false] at hu
      obtain hu | rfl | hu | rfl := hu
      · exact ihe he u hu
      · exact hbrackets.elim (fun h => hkind h.1 (by decide)) fun h => hkind h.1 (by decide)
      · exact ihi hi u hu
      · exact hbrackets.elim (fun h => hkind h.2 (by decide)) fun h => hkind h.2 (by decide)

/-- No comment opens inside a token, and what a slash ends would go on with what
opens one. -/
theorem token_opens {t : Token} (hk : kind isType t ≠ .other) (h : IsToken rules t.body) :
    t.body.IsChain NoOpening
      ∧ (t.body.getLast? = some '/' → grows t.body '/' = true ∧ grows t.body '*' = true) := by
  -- words and numbers have no slash
  have hplain : '/' ∉ t.body → t.body.IsChain NoOpening
      ∧ (t.body.getLast? = some '/' → grows t.body '/' = true ∧ grows t.body '*' = true) := by
    intro hnone
    refine ⟨?_, fun hlast => absurd (List.mem_of_getLast? hlast) hnone⟩
    refine (List.isChain_iff_forall_rel_of_append_cons_cons).mpr fun {a b l₁ l₂} hsplit ha => ?_
    refine absurd ?_ hnone
    rw [hsplit, ha]
    exact List.mem_append_right _ List.mem_cons_self
  have hslash : isWordChar '/' = false := rfl
  cases hsymbol : (kind isType t).isSymbol with
  | true =>
      have hall : (symbols.all fun e => decide (e.1.IsChain NoOpening)
          && (decide (e.1.getLast? ≠ some '/') || (grows e.1 '/' && grows e.1 '*'))) = true := by decide
      have hs := List.all_eq_true.mp hall _ (kindOf_symbol hsymbol)
      simp only [Bool.and_eq_true, decide_eq_true_eq, Bool.or_eq_true] at hs
      exact ⟨hs.1, fun hlast => hs.2.resolve_left fun hne => hne hlast⟩
  | false =>
      cases hkind : kind isType t with
      | name =>
          refine hplain fun hmem => ?_
          rw [@word_chars isType _ (by rw [show kindOf isType t.body = _ from hkind]; rfl) h _ hmem] at hslash
          cases hslash
      | type =>
          refine hplain fun hmem => ?_
          rw [@word_chars isType _ (by rw [show kindOf isType t.body = _ from hkind]; rfl) h _ hmem] at hslash
          cases hslash
      | number =>
          refine hplain fun hmem => ?_
          obtain hword | hpoint | hplus | hminus := @number_chars isType _ hkind h _ hmem
          · rw [hword] at hslash
            cases hslash
          · cases hpoint
          · cases hplus
          · cases hminus
      | other => exact absurd hkind hk
      | _ =>
          rw [hkind] at hsymbol
          cases hsymbol

/-- Blanks open nothing. -/
theorem isChain_blanks {s : Text} (h : ∀ c ∈ s, isSpace c = true) : s.IsChain NoOpening := by
  refine (List.isChain_iff_forall_rel_of_append_cons_cons).mpr fun {a b l₁ l₂} hsplit ha => ?_
  have hspace := h a (by rw [hsplit]; exact List.mem_append_right _ List.mem_cons_self)
  rw [ha] at hspace
  cases hspace

/-- Blanks end with no slash. -/
theorem noOpening_blanks {s rest : Text} (h : ∀ c ∈ s, isSpace c = true) (hrest : rest.IsChain NoOpening) :
    (s ++ rest).IsChain NoOpening := by
  refine List.isChain_append.mpr ⟨isChain_blanks h, hrest, fun a ha b _ hslash => ?_⟩
  have hspace := h a (List.mem_of_getLast? ha)
  rw [hslash] at hspace
  cases hspace

/-- The tokens of an expression open no comment, and neither do two that meet. -/
theorem isChain_render {trail : Text} (htrail : ∀ c ∈ trail, isSpace c = true) {ts : List Token}
    (hkind : ∀ t ∈ ts, kind isType t ≠ .other) (h : LexOK rules ts) :
    (render ts ++ trail).IsChain NoOpening := by
  induction ts with
  | nil => exact isChain_blanks htrail
  | cons t ts ih =>
      obtain ⟨hlead, htoken, hstops, hok⟩ := h
      obtain ⟨hbody, hlast⟩ := token_opens (hkind t List.mem_cons_self) htoken
      have hrest := ih (fun u hu => hkind u (List.mem_cons_of_mem _ hu)) hok
      rw [render_cons, Lexeme.text, List.append_assoc, List.append_assoc]
      refine noOpening_blanks hlead (List.isChain_append.mpr ⟨hbody, hrest, fun a ha b hb hslash => ?_⟩)
      -- a token that ends with a slash stops in front of neither
      rw [hslash] at ha
      obtain ⟨hline, hblock⟩ := hlast ha
      have hgrows : b = '/' ∨ b = '*' → False := by
        intro hopens
        cases hts : render ts with
        | nil =>
            rw [hts, List.nil_append] at hb
            have hspace := htrail b (List.mem_of_mem_head? hb)
            obtain rfl | rfl := hopens <;> cases hspace
        | cons c cs =>
            rw [hts] at hb hstops
            cases hb
            have hstop : grows t.body b = false := hstops b rfl
            obtain rfl | rfl := hopens
            · rw [hline] at hstop
              cases hstop
            · rw [hblock] at hstop
              cases hstop
      exact ⟨fun heq => hgrows (.inl heq), fun heq => hgrows (.inr heq)⟩

/-- **There is no comment in the text of an expression.** -/
theorem noComment_of_parse {s : Text} {e : Expr} (h : parseText isType s = some e) : s.IsChain NoOpening := by
  obtain ⟨hwf, hok, trail, htrail, rfl⟩ := parseText_iff.mp h
  exact isChain_render htrail (kind_of_mem_toks hwf) hok

/-- What was read is a part of its text. -/
theorem part_of_text {s : Text} {e : Expr} (h : parseText isType s = some e) : Part isType e := by
  obtain ⟨hwf, hok, -⟩ := parseText_iff.mp h
  exact ⟨hwf, hok⟩

end ShaderClippy.Hlsl
