/-
  ShaderClippy.Hlsl.Loose

  **PLACES THAT ASK FOR NEXT TO NOTHING.**

  Between brackets, behind a comma or an assignment and in the arms of a
  conditional, a conditional may stand as it is. What is around such a place
  never runs into what is put there (`seam_loose`).
-/
import Mathlib
import ShaderClippy.Hlsl.Seams

namespace ShaderClippy.Hlsl

open Munch (LexOK Seam render)

variable {isType : Text → Bool}

/-! ## §1. What is around a loose place. -/

/-- In front of an operand that may be a conditional. -/
def Kind.opensLoosely : Kind → Bool
  | .openParen => true
  | .openBracket => true
  | .question => true
  | .colon => true
  | .operator p => p == kComma || p == kAssign
  | _ => false

/-- Behind such an operand. -/
def Kind.closesLoosely : Kind → Bool
  | .closeParen => true
  | .closeBracket => true
  | .colon => true
  | .operator p => p == kComma
  | _ => false

/-- An operator whose operand may be a conditional. -/
theorem loose_operator {op : Token} {p : Prec} (hp : (kind isType op).prec = some p)
    (hloose : p.level ≤ kConditional) :
    (p = kComma ∨ p = kAssign) ∧ kind isType op = .operator p := by
  have hcases : p = kComma ∨ p = kAssign := by
    rcases prec_cases hp with h | h | ⟨n, hn, _, rfl⟩
    · exact Or.inl h
    · exact Or.inr h
    · have hlevel : n ≤ 2 := hloose
      omega
  refine ⟨hcases, ?_⟩
  have hsymbol : (kind isType op).isSymbol = true := (opens_operator hp).1
  have hall : (symbols.all fun s => s.2.prec == none || s.2 == .operator (s.2.prec.getD kComma)
      || (s.2.prec != some kComma && s.2.prec != some kAssign)) = true := rfl
  have hs := List.all_eq_true.mp hall _ (kindOf_symbol hsymbol)
  rcases hcases with rfl | rfl <;> simpa [hp] using hs

theorem loose_right {op : Token} {p : Prec} (hp : (kind isType op).prec = some p)
    (hneed : p.right ≤ kConditional) : p.level ≤ kConditional := by
  have hconditional : kConditional = 2 := rfl
  rcases prec_cases hp with rfl | rfl | ⟨n, hn, _, rfl⟩
  · exact Nat.zero_le _
  · exact Nat.le_succ 1
  · have hright : n + 1 ≤ 2 := hneed
    omega

theorem loose_left {op : Token} {p : Prec} (hp : (kind isType op).prec = some p)
    (hneed : p.left ≤ kConditional) : p = kComma := by
  rcases prec_cases hp with rfl | rfl | ⟨n, hn, _, rfl⟩
  · rfl
  · exact absurd hneed (by decide)
  · have hleft : n ≤ 2 := hneed
    omega

theorem opensLoosely_before {c : Ctx} (hc : c.WellFormed isType) (hneed : c.need isType ≤ kConditional)
    {t : Token} (ht : c.before.getLast? = some t) : (kind isType t).opensLoosely = true := by
  induction c with
  | nil => cases ht
  | cons f c ih =>
      rw [Ctx.before] at ht
      rw [Ctx.need] at hneed
      obtain ⟨hf, hlevel, hrest⟩ := hc
      cases f with
      | paren l r =>
          rw [Frame.before, List.getLast?_concat] at ht
          cases ht
          rw [hf.1]
          rfl
      | construct type l r =>
          have hlist : Ctx.before c ++ [type, l] = (Ctx.before c ++ [type]) ++ [l] := by simp
          rw [Frame.before, hlist, List.getLast?_concat] at ht
          cases ht
          rw [hf.2.1]
          rfl
      | unary p => exact absurd hneed (by show ¬ 14 ≤ 2; omega)
      | left op y =>
          -- only the comma asks for so little on its left
          obtain ⟨p, hp, _⟩ := hf
          rw [Frame.need, hp] at hneed
          have hcomma := loose_left hp hneed
          rw [Frame.level, hp, hcomma] at hlevel
          rw [Frame.before, List.append_nil] at ht
          exact ih hrest (Nat.le_trans hlevel (Nat.zero_le _)) ht
      | right x op =>
          obtain ⟨p, hp, _⟩ := hf
          rw [Frame.need, hp] at hneed
          obtain ⟨hcases, hkind⟩ := loose_operator hp (loose_right hp hneed)
          rw [Frame.before, ← List.append_assoc, List.getLast?_concat] at ht
          cases ht
          rw [hkind]
          rcases hcases with rfl | rfl <;> rfl
      | test q a k b => exact absurd hneed (by show ¬ 3 ≤ 2; omega)
      | consequence cnd q k b =>
          rw [Frame.before, ← List.append_assoc, List.getLast?_concat] at ht
          cases ht
          rw [hf.1]
          rfl
      | alternative cnd q a k =>
          have hlist : Ctx.before c ++ (cnd.toks ++ q :: (a.toks ++ [k]))
              = (Ctx.before c ++ (cnd.toks ++ q :: a.toks)) ++ [k] := by simp
          rw [Frame.before, hlist, List.getLast?_concat] at ht
          cases ht
          rw [hf.2.1]
          rfl
      | suffix s => exact absurd hneed (by show ¬ 15 ≤ 2; omega)
      | callee l i r => exact absurd hneed (by show ¬ 15 ≤ 2; omega)
      | argument f l r =>
          rw [Frame.before, ← List.append_assoc, List.getLast?_concat] at ht
          cases ht
          rcases hf.2.2 with ⟨hl, _⟩ | ⟨hl, _⟩ <;> rw [hl] <;> rfl

theorem closesLoosely_after {c : Ctx} (hc : c.WellFormed isType) (hneed : c.need isType ≤ kConditional)
    {t : Token} (ht : c.after.head? = some t) : (kind isType t).closesLoosely = true := by
  induction c with
  | nil => cases ht
  | cons f c ih =>
      rw [Ctx.after] at ht
      rw [Ctx.need] at hneed
      obtain ⟨hf, hlevel, hrest⟩ := hc
      cases f with
      | paren l r =>
          cases ht
          rw [hf.2]
          rfl
      | construct type l r =>
          cases ht
          rw [hf.2.2]
          rfl
      | unary p => exact absurd hneed (by show ¬ 14 ≤ 2; omega)
      | left op y =>
          obtain ⟨p, hp, _⟩ := hf
          rw [Frame.need, hp] at hneed
          have hcomma := loose_left hp hneed
          cases ht
          rw [hcomma] at hp
          rw [(loose_operator hp (Nat.zero_le _)).2]
          rfl
      -- what follows the operator expression follows its right side
      | right x op =>
          obtain ⟨p, hp, _⟩ := hf
          rw [Frame.need, hp] at hneed
          rw [Frame.level, hp] at hlevel
          exact ih hrest (Nat.le_trans hlevel (loose_right hp hneed)) ht
      | test q a k b => exact absurd hneed (by show ¬ 3 ≤ 2; omega)
      | consequence cnd q k b =>
          cases ht
          rw [hf.2.1]
          rfl
      | alternative cnd q a k => exact ih hrest hlevel ht
      | suffix s => exact absurd hneed (by show ¬ 15 ≤ 2; omega)
      | callee l i r => exact absurd hneed (by show ¬ 15 ≤ 2; omega)
      | argument f l r =>
          cases ht
          rcases hf.2.2 with ⟨_, hr⟩ | ⟨_, hr⟩ <;> rw [hr] <;> rfl

/-! ## §2. What an expression begins and ends with. -/

/-- What an expression begins with. -/
def Kind.starts (k : Kind) : Bool := k.isWord || k == .number || k == .openParen || k.isUnary

/-- What an expression ends with. -/
def Kind.ends (k : Kind) : Bool :=
  k.isWord || k == .number || k == .closeParen || k == .closeBracket || k == .step

theorem first_toks {e : Expr} (he : e.WellFormed isType) :
    ∃ t, e.toks.head? = some t ∧ (kind isType t).starts = true := by
  have hhead : ∀ {x : Expr} {us : List Token},
      (∃ t, x.toks.head? = some t ∧ (kind isType t).starts = true) →
        ∃ t, (x.toks ++ us).head? = some t ∧ (kind isType t).starts = true := by
    rintro x us ⟨t, ht, hk⟩
    exact ⟨t, by rw [List.head?_append_of_ne_nil _ x.toks_ne_nil, ht], hk⟩
  induction e with
  | atom t =>
      refine ⟨t, rfl, ?_⟩
      rcases he with h | h <;> rw [h] <;> rfl
  | paren l e r => exact ⟨l, rfl, by rw [he.1]; rfl⟩
  | construct type l args r => exact ⟨type, rfl, by rw [he.1]; rfl⟩
  | unary p e =>
      cases p with
      | op t =>
          refine ⟨t, rfl, ?_⟩
          have hunary : (kind isType t).isUnary = true := he.1
          rw [Kind.starts, hunary, Bool.or_true]
      | cast l type r => exact ⟨l, rfl, by rw [he.1.1]; rfl⟩
  | binary x op y ihx _ =>
      have ⟨_, _, hx, _⟩ := he
      exact hhead (ihx hx)
  | cond c q a k b ihc _ _ => exact hhead (ihc he.2.2.1)
  | suffix e s ih => exact hhead (ih he.1)
  | apply e l i r ih _ => exact hhead (ih he.1)

theorem last_toks {e : Expr} (he : e.WellFormed isType) :
    ∃ t, e.toks.getLast? = some t ∧ (kind isType t).ends = true := by
  have hlast : ∀ {x : Expr} {us : List Token},
      (∃ t, x.toks.getLast? = some t ∧ (kind isType t).ends = true) →
        ∃ t, (us ++ x.toks).getLast? = some t ∧ (kind isType t).ends = true := by
    rintro x us ⟨t, ht, hk⟩
    exact ⟨t, by rw [List.getLast?_append, ht, Option.some_or], hk⟩
  induction e with
  | atom t =>
      refine ⟨t, rfl, ?_⟩
      rcases he with h | h <;> rw [h] <;> rfl
  | paren l e r =>
      refine ⟨r, by rw [Expr.toks, ← List.cons_append, List.getLast?_concat], ?_⟩
      rw [he.2.2]
      rfl
  | construct type l args r =>
      refine ⟨r, ?_, by rw [he.2.2.2]; rfl⟩
      rw [Expr.toks, ← List.cons_append, ← List.cons_append, List.getLast?_concat]
  | unary p e ih => exact hlast (ih he.2.1)
  | binary x op y _ ihy =>
      obtain ⟨_, _, _, _, hy, _⟩ := he
      have happ : x.toks ++ op :: y.toks = (x.toks ++ [op]) ++ y.toks := by simp
      rw [Expr.toks, happ]
      exact hlast (ihy hy)
  -- the last token is that of the last operand
  | cond c q a k b _ _ ihb =>
      have happ : c.toks ++ q :: (a.toks ++ k :: b.toks) = (c.toks ++ q :: (a.toks ++ [k])) ++ b.toks := by
        simp
      rw [Expr.toks, happ]
      exact hlast (ihb he.2.2.2.2.2.1)
  | suffix e s =>
      cases s with
      | step t =>
          have hstep : kind isType t = .step := he.2.2
          exact ⟨t, by rw [Expr.toks, Suffix.toks, List.getLast?_concat], by rw [hstep]; rfl⟩
      | member dot name =>
          have hname : (kind isType name).isWord = true := he.2.2.2
          have happ : e.toks ++ [dot, name] = (e.toks ++ [dot]) ++ [name] := by simp
          refine ⟨name, by rw [Expr.toks, Suffix.toks, happ, List.getLast?_concat], ?_⟩
          simp only [Kind.ends, hname, Bool.true_or]
      | nullary l r =>
          have happ : e.toks ++ [l, r] = (e.toks ++ [l]) ++ [r] := by simp
          refine ⟨r, by rw [Expr.toks, Suffix.toks, happ, List.getLast?_concat], ?_⟩
          rw [he.2.2.2]
          rfl
  | apply e l i r =>
      have happ : e.toks ++ l :: (i.toks ++ [r]) = (e.toks ++ l :: i.toks) ++ [r] := by simp
      refine ⟨r, by rw [Expr.toks, happ, List.getLast?_concat], ?_⟩
      rcases he.2.2.2 with ⟨_, hr⟩ | ⟨_, hr⟩ <;> rw [hr] <;> rfl

/-! ## §3. Nothing runs together. -/

/-- These go on a symbol that opens a loose place. -/
def kLooseSecond : List Char := ['=', ':']

/-- A token that starts an operand begins with no character of `kLooseSecond`. -/
theorem head_starts {u : Token} (hu : (kind isType u).starts = true) :
    ∃ c cs, u.body = c :: cs ∧ c ∉ kLooseSecond := by
  by_cases hunary : (kind isType u).isUnary = true
  · have hsymbol : (kind isType u).isSymbol = true := (opens_unary hunary).1
    have ⟨c, cs, hbody, _⟩ := symbol_head (kindOf_symbol hsymbol)
    refine ⟨c, cs, hbody, ?_⟩
    have hall : (symbols.all fun s => !s.2.isUnary || s.1.head?.all fun c => !kLooseSecond.contains c)
        = true := rfl
    have hs := List.all_eq_true.mp hall _ (kindOf_symbol hsymbol)
    rw [hunary, Bool.not_true, Bool.false_or, hbody] at hs
    simpa using hs
  · have hoperand : (kind isType u).isWord = true ∨ kind isType u = .number
        ∨ kind isType u = .openParen := by
      rw [Kind.starts] at hu
      simpa [hunary, or_assoc] using hu
    have ⟨c, cs, hbody, hc⟩ := head_operand hoperand
    refine ⟨c, cs, hbody, fun hmem => hc ?_⟩
    have hall : (kLooseSecond.all fun c => kSecond.contains c) = true := rfl
    exact List.contains_iff_mem.mp (List.all_eq_true.mp hall c hmem)

/-- What opens a loose place ends in front of every expression. -/
theorem grows_opensLoosely {t : Token} (ht : (kind isType t).opensLoosely = true) {c : Char}
    (hc : c ∉ kLooseSecond) : grows t.body c = false := by
  have hsymbol : (kind isType t).isSymbol = true := by
    cases hk : kind isType t <;> simp [hk, Kind.opensLoosely, Kind.isSymbol] at ht ⊢
  have hmem := kindOf_symbol hsymbol
  obtain ⟨d, cs, hbody, _, hstart, hnumber⟩ := symbol_head hmem
  have hall : (symbols.all fun s => !s.2.opensLoosely || (s.1 != ['.'] && punctuators.all fun p =>
      p.dropLast != s.1 || p.getLast?.all fun x => kLooseSecond.contains x)) = true := rfl
  have hs := List.all_eq_true.mp hall _ hmem
  rw [ht, Bool.not_true, Bool.false_or, Bool.and_eq_true, bne_iff_ne] at hs
  have hpunct : punctuators.contains (t.body ++ [c]) = false := by
    rw [Bool.eq_false_iff]
    intro hp
    have hlast := List.all_eq_true.mp hs.2 _ (List.contains_iff_mem.mp hp)
    rw [List.dropLast_concat, List.getLast?_concat] at hlast
    simp only [bne_self_eq_false, Bool.false_or, Option.all_some, List.contains_eq_mem,
      decide_eq_true_eq] at hlast
    exact hc hlast
  have hpoint := hs.1
  rw [hbody] at hpoint hpunct ⊢
  have hne : (d :: cs == ['.']) = false := beq_eq_false_iff_ne.mpr hpoint
  rw [grows, hstart, hnumber, hne, hpunct]
  rfl

/-- What closes a loose place begins with one of these. -/
def kClosers : List Char := [')', ']', ':', ',']

/-- A token that closes loosely begins with one of `kClosers`. -/
theorem head_closesLoosely {u : Token} (hu : (kind isType u).closesLoosely = true) :
    ∃ c cs, u.body = c :: cs ∧ c ∈ kClosers := by
  have hsymbol : (kind isType u).isSymbol = true := by
    cases hk : kind isType u <;> simp [hk, Kind.closesLoosely, Kind.isSymbol] at hu ⊢
  have hmem := kindOf_symbol hsymbol
  obtain ⟨c, cs, hbody, _⟩ := symbol_head hmem
  refine ⟨c, cs, hbody, ?_⟩
  have hall : (symbols.all fun s => !s.2.closesLoosely || s.1.head?.all fun c => kClosers.contains c)
      = true := rfl
  have hs := List.all_eq_true.mp hall _ hmem
  rw [hu, Bool.not_true, Bool.false_or, hbody] at hs
  simpa using hs

/-- Every expression ends in front of what closes a loose place. -/
theorem grows_closer {t : Token} (ht : (kind isType t).ends = true) {c : Char} (hc : c ∈ kClosers) :
    grows t.body c = false := by
  have hchar : (kClosers.all fun c => !isWordChar c && c != '.' && c != '+' && c != '-') = true := rfl
  have hno := List.all_eq_true.mp hchar c hc
  simp only [Bool.and_eq_true, Bool.not_eq_true', bne_iff_ne] at hno
  have ⟨⟨⟨hword, hdot⟩, hplus⟩, hminus⟩ := hno
  by_cases hisWord : (kind isType t).isWord = true
  · rw [grows_word hisWord, hword]
  · by_cases hnumber : kind isType t = .number
    · have ⟨d, cs, hbody, hstart, htext⟩ := kindOf_number hnumber
      rw [hbody] at htext ⊢
      rw [grows, if_neg (by simp [hstart]), if_pos htext, hword]
      simp [hdot, hplus, hminus]
    · have hsymbol : (kind isType t).isSymbol = true := by
        cases hk : kind isType t <;> simp [hk, Kind.ends, Kind.isWord, Kind.isSymbol] at ht hisWord hnumber ⊢
      have hall : (symbols.all fun s => !s.2.ends || kClosers.all fun c => !grows s.1 c) = true := rfl
      have hs := List.all_eq_true.mp hall _ (kindOf_symbol hsymbol)
      rw [ht, Bool.not_true, Bool.false_or] at hs
      simpa using List.all_eq_true.mp hs c hc

/-- **Nothing runs together at a place where a conditional may stand.** -/
theorem seam_loose {c : Ctx} (hc : c.WellFormed isType) (hok : LexOK rules c.after)
    (hneed : c.need isType ≤ kConditional) {e : Expr} (he : Part isType e) :
    Seam rules c.before e.toks ∧ Seam rules e.toks c.after := by
  constructor
  · intro t ht
    have ⟨u, hhead, hu⟩ := first_toks he.1
    have ⟨ch, cs, hbody, hch⟩ := head_starts hu
    have hstop := grows_opensLoosely (opensLoosely_before hc hneed ht) hch
    have ⟨us, htoks⟩ : ∃ us, e.toks = u :: us := List.head?_eq_some_iff.mp hhead
    have hlead : Blank u.lead := by
      have hok := he.2
      rw [htoks] at hok
      exact hok.1
    rw [htoks]
    exact stops_token hlead hbody hstop
  · intro t ht
    have ⟨u, hlast, hu⟩ := last_toks he.1
    rw [hlast] at ht
    cases ht
    cases hafter : c.after with
    | nil => exact Munch.stops_nil _
    | cons v vs =>
        rw [hafter] at hok
        have hcloses : (kind isType v).closesLoosely = true :=
          closesLoosely_after hc hneed (by rw [hafter]; rfl)
        have ⟨ch, cs, hbody, hch⟩ := head_closesLoosely hcloses
        exact stops_token hok.1 hbody (grows_closer hu hch)

end ShaderClippy.Hlsl
