/-
  ShaderClippy.Hlsl.Token

  **THE TOKENS OF AN EXPRESSION.**

  The rules read a tree that was made from the text of the shader, and write
  text that will be read again. This is the first half of that reading: words,
  numbers and punctuators, each as long as it can be (`Lib.Munch`). A number is
  taken the way C takes it, so that `1.x` and `0xE+1` are ONE token each.

  A token carries the blanks in front of it; there are no other trivia.
-/
import ShaderClippy.Source
import ShaderClippy.Lib.Munch

namespace ShaderClippy.Hlsl

open Munch (Lexeme Rules)

/-- A token with the blanks in front of it. -/
abbrev Token := Lexeme Char

/-! ## §1. Characters. -/

def isSpace (c : Char) : Bool := c == ' ' || c == '\t' || c == '\r' || c == '\n'

def isWordStart (c : Char) : Bool := c.isAlpha || c == '_'

def isWordChar (c : Char) : Bool := c.isAlphanum || c == '_'

/-- A digit, or a point and a digit. -/
def isNumberText : Text → Bool
  | '.' :: c :: _ => c.isDigit
  | c :: _ => c.isDigit
  | [] => false

/-- After these letters a number goes on with a sign. -/
def isExponent (c : Char) : Bool := c == 'e' || c == 'E' || c == 'p' || c == 'P'

/-- The punctuators of more than one character. A comment is none; what opens
one is a token of its own, which no expression has. -/
def punctuators : List Text :=
  [['+', '+'], ['-', '-'], ['+', '='], ['-', '='], ['*', '='], ['/', '='], ['%', '='], ['&', '='],
    ['|', '='], ['^', '='], ['<', '<'], ['>', '>'], ['<', '<', '='], ['>', '>', '='], ['<', '='],
    ['>', '='], ['=', '='], ['!', '='], ['&', '&'], ['|', '|'], [':', ':'], ['-', '>'], ['/', '/'],
    ['/', '*'], ['#', '#']]

/-- A token may go on with this character. -/
def grows : Text → Char → Bool
  | [], c => !isSpace c
  | h :: t, c =>
      if isWordStart h then isWordChar c
      else if isNumberText (h :: t) then
        isWordChar c || c == '.' || ((c == '+' || c == '-') && (h :: t).getLast?.any isExponent)
      else (h :: t == ['.'] && c.isDigit) || punctuators.contains (h :: t ++ [c])

theorem isSpace_cases {c : Char} (h : isSpace c = true) : c = ' ' ∨ c = '\t' ∨ c = '\r' ∨ c = '\n' := by
  simpa [isSpace, or_assoc] using h

/-- The last character of a punctuator. -/
theorem punctuator_last {s : Text} {c : Char} (h : punctuators.contains (s ++ [c]) = true) :
    c ∈ ['+', '-', '=', '<', '>', '&', '|', ':', '/', '*', '#'] := by
  have hall : (punctuators.all fun p =>
      p.getLast?.all fun d => ['+', '-', '=', '<', '>', '&', '|', ':', '/', '*', '#'].contains d) = true :=
    rfl
  have hmem : s ++ [c] ∈ punctuators := List.contains_iff_mem.mp h
  have hlast := List.all_eq_true.mp hall _ hmem
  rw [List.getLast?_concat] at hlast
  exact List.contains_iff_mem.mp hlast

/-- A blank ends every token. -/
theorem space_stops (cur : Text) (c : Char) (h : isSpace c = true) : grows cur c = false := by
  have hword : isWordChar c = false ∧ (c == '.' || (c == '+' || c == '-')) = false
      ∧ c.isDigit = false := by
    rcases isSpace_cases h with rfl | rfl | rfl | rfl <;> decide
  cases cur with
  | nil => simp [grows, h]
  | cons x xs =>
      have hpunct : punctuators.contains (x :: xs ++ [c]) = false := by
        rw [Bool.eq_false_iff]
        intro hp
        have hlast := punctuator_last (s := x :: xs) hp
        rcases isSpace_cases h with rfl | rfl | rfl | rfl <;> exact absurd hlast (by decide)
      have ⟨h1, h2, h3⟩ := hword
      rw [Bool.or_eq_false_iff] at h2
      rw [grows, h1, h2.1, h2.2, h3, hpunct]
      simp

/-- The tokens of HLSL. -/
def rules : Rules Char := ⟨isSpace, grows, space_stops⟩

/-! ## §2. What a token can be in an expression. -/

/-- The level of a binary operator, and the least levels of its operands. -/
structure Prec where
  level : Nat
  left : Nat
  right : Nat
  deriving DecidableEq

def kComma : Prec := ⟨0, 0, 1⟩

/-- Assignment groups to the right. -/
def kAssign : Prec := ⟨1, 3, 1⟩

/-- The other binary operators group to the left. -/
def leftAssoc (level : Nat) : Prec := ⟨level, level, level + 1⟩

inductive Kind where
  | name
  | type
  | number
  | openParen
  | closeParen
  | openBracket
  | closeBracket
  | dot
  | question
  | colon
  | step
  | sign (p : Prec)
  | negation
  | operator (p : Prec)
  | other
  deriving DecidableEq

/-- `+` and `-` stand in front of an operand and between two. -/
def symbols : List (Text × Kind) :=
  [(['('], .openParen), ([')'], .closeParen), (['['], .openBracket), ([']'], .closeBracket),
    (['.'], .dot), (['?'], .question), ([':'], .colon), (['+', '+'], .step), (['-', '-'], .step),
    (['!'], .negation), (['~'], .negation), ([','], .operator kComma), (['='], .operator kAssign),
    (['+', '='], .operator kAssign), (['-', '='], .operator kAssign),
    (['*', '='], .operator kAssign), (['/', '='], .operator kAssign),
    (['%', '='], .operator kAssign), (['&', '='], .operator kAssign),
    (['|', '='], .operator kAssign), (['^', '='], .operator kAssign),
    (['<', '<', '='], .operator kAssign), (['>', '>', '='], .operator kAssign),
    (['|', '|'], .operator (leftAssoc 3)), (['&', '&'], .operator (leftAssoc 4)),
    (['|'], .operator (leftAssoc 5)), (['^'], .operator (leftAssoc 6)),
    (['&'], .operator (leftAssoc 7)), (['=', '='], .operator (leftAssoc 8)),
    (['!', '='], .operator (leftAssoc 8)), (['<'], .operator (leftAssoc 9)),
    (['>'], .operator (leftAssoc 9)), (['<', '='], .operator (leftAssoc 9)),
    (['>', '='], .operator (leftAssoc 9)), (['<', '<'], .operator (leftAssoc 10)),
    (['>', '>'], .operator (leftAssoc 10)), (['+'], .sign (leftAssoc 11)),
    (['-'], .sign (leftAssoc 11)), (['*'], .operator (leftAssoc 12)),
    (['/'], .operator (leftAssoc 12)), (['%'], .operator (leftAssoc 12))]

/-- A word, a number, or none. -/
def wordKind (isType : Text → Bool) (body : Text) : Kind :=
  if body.head?.any isWordStart then if isType body then .type else .name
  else if isNumberText body then .number else .other

/-- The kind of a token, where these words are types. -/
def kindOf (isType : Text → Bool) (body : Text) : Kind :=
  (symbols.lookup body).getD (wordKind isType body)

/-- As a binary operator. -/
def Kind.prec : Kind → Option Prec
  | .sign p => some p
  | .operator p => some p
  | _ => none

/-- In front of an operand. -/
def Kind.isUnary : Kind → Bool
  | .step => true
  | .sign _ => true
  | .negation => true
  | _ => false

/-- A member may have the name of a type. -/
def Kind.isWord : Kind → Bool
  | .name => true
  | .type => true
  | _ => false

/-- Not a word and not a number. -/
def Kind.isSymbol : Kind → Bool
  | .name => false
  | .type => false
  | .number => false
  | .other => false
  | _ => true

/-- What has a symbol's kind stands in the table of symbols. -/
theorem kindOf_symbol {isType : Text → Bool} {body : Text} (h : (kindOf isType body).isSymbol = true) :
    (body, kindOf isType body) ∈ symbols := by
  rw [kindOf] at h ⊢
  cases hl : symbols.lookup body with
  | some k =>
      have ⟨l, r, hsplit, _⟩ := List.lookup_eq_some_iff.mp hl
      rw [hsplit]
      exact List.mem_append_right _ (List.mem_cons_self ..)
  | none =>
      rw [hl, Option.getD_none, wordKind] at h
      split at h
      · split at h <;> cases h
      · split at h <;> cases h

/-- The levels of the operators. -/
theorem prec_cases {isType : Text → Bool} {body : Text} {p : Prec}
    (h : (kindOf isType body).prec = some p) :
    p = kComma ∨ p = kAssign ∨ ∃ n, 3 ≤ n ∧ n ≤ 12 ∧ p = leftAssoc n := by
  have hsymbol : (kindOf isType body).isSymbol = true := by
    cases hk : kindOf isType body <;> rw [hk] at h <;> first | rfl | cases h
  have hall : (symbols.all fun s => s.2.prec.all fun p => p == kComma || p == kAssign
      || (List.range 13).any fun n => decide (3 ≤ n) && p == leftAssoc n) = true := rfl
  have hp := List.all_eq_true.mp hall _ (kindOf_symbol hsymbol)
  simp only [h, Option.all_some, Bool.or_eq_true, beq_iff_eq, List.any_eq_true, Bool.and_eq_true,
    decide_eq_true_eq, List.mem_range] at hp
  rcases hp with (hp | hp) | ⟨n, hn, hle, hp⟩
  · exact Or.inl hp
  · exact Or.inr (Or.inl hp)
  · exact Or.inr (Or.inr ⟨n, hle, by omega, hp⟩)

/-! ## §3. What tokens run together. -/

/-- Characters that can follow another one in a punctuator. -/
def kSecond : List Char := ['+', '-', '=', '<', '>', '&', '|', ':', '/', '*', '#']

/-- No symbol begins like a word or a number. -/
theorem symbol_head {body : Text} {k : Kind} (h : (body, k) ∈ symbols) :
    ∃ c t, body = c :: t ∧ isWordChar c = false ∧ isWordStart c = false
      ∧ isNumberText (c :: t) = false := by
  have hall : (symbols.all fun s => s.1.head?.any (fun c => !isWordChar c && !isWordStart c)
      && !isNumberText s.1) = true := rfl
  have hb := List.all_eq_true.mp hall _ h
  cases body with
  | nil => cases hb
  | cons c t =>
      simp only [List.head?_cons, Option.any_some, Bool.and_eq_true, Bool.not_eq_true'] at hb
      exact ⟨c, t, rfl, hb.1.1, hb.1.2, hb.2⟩

/-- A symbol other than the point goes on with the character of a punctuator. -/
theorem grows_symbol {body : Text} {k : Kind} (h : (body, k) ∈ symbols) (hdot : k ≠ .dot) {c : Char}
    (hc : c ∉ kSecond) : grows body c = false := by
  have ⟨d, t, hbody, _, hstart, hnumber⟩ := symbol_head h
  have hpoint : body ≠ ['.'] := by
    intro heq
    have hall : (symbols.all fun s => s.1 != ['.'] || decide (s.2 = .dot)) = true := rfl
    have hs := List.all_eq_true.mp hall _ h
    simp only [heq, bne_self_eq_false, Bool.false_or, decide_eq_true_eq] at hs
    exact hdot hs
  have hpunct : punctuators.contains (body ++ [c]) = false := by
    rw [Bool.eq_false_iff]
    exact fun hp => hc (punctuator_last hp)
  rw [hbody] at hpoint hpunct ⊢
  have hne : (d :: t == ['.']) = false := beq_eq_false_iff_ne.mpr hpoint
  rw [grows, hstart, hnumber, hne, hpunct]
  rfl

/-- These are tokens of their own. -/
def kSolo : List Char := ['(', ')', '[', ']', ',']

/-- A character that stands alone takes no further one. -/
theorem grows_solo {d : Char} (hd : d ∈ kSolo) (c : Char) : grows [d] c = false := by
  have hfirst : (punctuators.all fun p => p.head?.all fun x => !kSolo.contains x) = true := rfl
  have hno : punctuators.contains [d, c] = false := by
    rw [Bool.eq_false_iff]
    intro hp
    have hhead := List.all_eq_true.mp hfirst _ (List.contains_iff_mem.mp hp)
    simp only [List.head?_cons, Option.all_some, Bool.not_eq_true', List.contains_eq_mem,
      decide_eq_false_iff_not] at hhead
    exact hhead hd
  have hall : (kSolo.all fun d => !isWordStart d && !isNumberText [d] && [d] != ['.']) = true := rfl
  have hs := List.all_eq_true.mp hall d hd
  simp only [Bool.and_eq_true, Bool.not_eq_true', bne_iff_ne] at hs
  have hpoint : ([d] == ['.']) = false := beq_eq_false_iff_ne.mpr hs.2
  rw [grows, hs.1.1, hs.1.2, hpoint]
  exact hno

/-- A closing bracket is one. -/
theorem grows_close {body : Text} {k : Kind} (h : (body, k) ∈ symbols)
    (hk : k = .closeParen ∨ k = .closeBracket) (c : Char) : grows body c = false := by
  have hall : (symbols.all fun s =>
      !(decide (s.2 = .closeParen) || decide (s.2 = .closeBracket)) || s.1 == [')'] || s.1 == [']']) = true :=
    rfl
  have hs := List.all_eq_true.mp hall _ h
  have hor : (decide (k = Kind.closeParen) || decide (k = Kind.closeBracket)) = true := by
    rcases hk with rfl | rfl <;> rfl
  simp only [hor, Bool.not_true, Bool.false_or, Bool.or_eq_true, beq_iff_eq] at hs
  rcases hs with rfl | rfl
  · exact grows_solo (by decide) c
  · exact grows_solo (by decide) c

/-- What is no symbol is a word, a number, or nothing. -/
theorem kindOf_wordKind {isType : Text → Bool} {body : Text}
    (h : (kindOf isType body).isSymbol = false) : kindOf isType body = wordKind isType body := by
  cases hl : symbols.lookup body with
  | none => rw [kindOf, hl, Option.getD_none]
  | some k =>
      have ⟨l, r, hsplit, _⟩ := List.lookup_eq_some_iff.mp hl
      have hall : (symbols.all fun s => s.2.isSymbol) = true := rfl
      have hmem : (body, k) ∈ symbols := by
        rw [hsplit]
        exact List.mem_append_right _ (List.mem_cons_self ..)
      have hk : k.isSymbol = true := List.all_eq_true.mp hall _ hmem
      rw [kindOf, hl, Option.getD_some, hk] at h
      cases h

/-- A word begins like a word. -/
theorem kindOf_word {isType : Text → Bool} {body : Text} (h : (kindOf isType body).isWord = true) :
    ∃ c t, body = c :: t ∧ isWordStart c = true := by
  have hkind : kindOf isType body = wordKind isType body :=
    kindOf_wordKind (by cases hk : kindOf isType body <;> simp [hk, Kind.isWord, Kind.isSymbol] at h ⊢)
  rw [hkind, wordKind] at h
  split at h
  case isTrue hstart =>
    have ⟨c, hc, hword⟩ := (Option.any_eq_true _ _).mp hstart
    cases body with
    | nil => cases hc
    | cons d t =>
        cases hc
        exact ⟨_, t, rfl, hword⟩
  case isFalse => split at h <;> cases h

/-- A number begins like a number and is one. -/
theorem kindOf_number {isType : Text → Bool} {body : Text} (h : kindOf isType body = .number) :
    ∃ c t, body = c :: t ∧ isWordStart c = false ∧ isNumberText body = true := by
  have hkind : kindOf isType body = wordKind isType body := kindOf_wordKind (by rw [h]; rfl)
  rw [hkind, wordKind] at h
  split at h
  case isTrue => split at h <;> cases h
  case isFalse hstart =>
    split at h
    case isTrue hnumber =>
      cases body with
      | nil => cases hnumber
      | cons c t =>
          refine ⟨c, t, rfl, ?_, hnumber⟩
          simpa using hstart
    case isFalse => cases h

theorem isWordStart_isWordChar {c : Char} (h : isWordStart c = true) : isWordChar c = true := by
  rw [isWordStart, Bool.or_eq_true] at h
  rw [isWordChar, Char.isAlphanum, Bool.or_eq_true, Bool.or_eq_true]
  tauto

theorem grown_word {cur w : Text} (hcur : cur.head?.any isWordStart = true)
    (hw : w.all isWordChar = true) : Munch.Grown rules cur w := by
  induction w generalizing cur with
  | nil => trivial
  | cons x xs ih =>
      rw [List.all_cons, Bool.and_eq_true] at hw
      cases cur with
      | nil => cases hcur
      | cons h t =>
          have hstart : isWordStart h = true := hcur
          have hgrows : grows (h :: t) x = true := by rw [grows, if_pos hstart, hw.1]
          exact ⟨hgrows, ih hcur hw.2⟩

/-- A word is one token. -/
theorem isToken_word {w : Text} (hhead : w.head?.any isWordStart = true) (hw : w.all isWordChar = true) :
    Munch.IsToken rules w := by
  cases w with
  | nil => cases hhead
  | cons x xs =>
      rw [List.all_cons, Bool.and_eq_true] at hw
      have hspace : isSpace x = false := by
        rw [Bool.eq_false_iff]
        intro hx
        rcases isSpace_cases hx with rfl | rfl | rfl | rfl <;> exact absurd hw.1 (by decide)
      have hfirst : grows [] x = true := by rw [grows, hspace, Bool.not_false]
      exact ⟨nofun, hfirst, @grown_word [x] xs hhead hw.2⟩

/-- A word goes on with the characters of a word. -/
theorem grows_word {isType : Text → Bool} {body : Text} (h : (kindOf isType body).isWord = true)
    (c : Char) : grows body c = isWordChar c := by
  have ⟨d, t, hbody, hstart⟩ := kindOf_word h
  rw [hbody, grows, if_pos hstart]

/-- A number goes on with a point. -/
theorem grows_number {isType : Text → Bool} {body : Text} (h : kindOf isType body = .number) :
    grows body '.' = true := by
  have ⟨d, t, hbody, hstart, hnumber⟩ := kindOf_number h
  rw [hbody] at hnumber ⊢
  rw [grows, if_neg (by simp [hstart]), if_pos hnumber]
  rfl

/-- The character an operand of a member access begins with. -/
theorem head_operand {isType : Text → Bool} {body : Text}
    (h : (kindOf isType body).isWord = true ∨ kindOf isType body = .number
      ∨ kindOf isType body = .openParen) :
    ∃ c t, body = c :: t ∧ c ∉ kSecond := by
  have hword : ∀ c, isWordChar c = true → c ∉ kSecond := by
    intro c hc hmem
    have hall : (kSecond.all fun d => !isWordChar d) = true := rfl
    have hno := List.all_eq_true.mp hall c hmem
    rw [hc] at hno
    cases hno
  rcases h with h | h | h
  · have ⟨c, t, hbody, hstart⟩ := kindOf_word h
    exact ⟨c, t, hbody, hword c (isWordStart_isWordChar hstart)⟩
  · have ⟨c, t, hbody, _, hnumber⟩ := kindOf_number h
    refine ⟨c, t, hbody, ?_⟩
    by_cases hdot : c = '.'
    · rw [hdot]
      decide
    · have hdigit : c.isDigit = true := by
        rw [hbody] at hnumber
        unfold isNumberText at hnumber
        split at hnumber
        · rename_i heq
          cases heq
          exact absurd rfl hdot
        · rename_i heq
          cases heq
          exact hnumber
        · rename_i heq
          cases heq
      exact hword c (by rw [isWordChar, Char.isAlphanum, hdigit, Bool.or_true, Bool.true_or])
  · have hmem : (body, kindOf isType body) ∈ symbols := kindOf_symbol (by rw [h]; rfl)
    rw [h] at hmem
    have hall : (symbols.all fun s => !decide (s.2 = .openParen) || s.1 == ['(']) = true := rfl
    have hs := List.all_eq_true.mp hall _ hmem
    simp only [decide_true, Bool.not_true, Bool.false_or, beq_iff_eq] at hs
    exact ⟨'(', [], hs, by decide⟩

end ShaderClippy.Hlsl
