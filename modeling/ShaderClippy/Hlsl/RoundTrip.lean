/-
  ShaderClippy.Hlsl.RoundTrip

  **PARSING IS PRINTING BACKWARDS.**

    • `run_sound`       what is parsed is well formed, and has these tokens;
    • `parseFrom_toks`  a well-formed tree is parsed from its tokens, whatever
                        follows, if its open ends take nothing of that;
    • `parse_iff`       both.
-/
import Mathlib
import ShaderClippy.Hlsl.Parser

namespace ShaderClippy.Hlsl

variable {isType : Text → Bool}

/-! ## §1. What is parsed is well formed. -/

/-- The tokens read so far. -/
def Pending.toks : Pending → List Token
  | .start => []
  | .got e => e.toks
  | .right x op _ => x.toks ++ [op]
  | .branch c q a k => c.toks ++ q :: (a.toks ++ [k])

/-- What has been read is well formed, for a caller that asks for level `m`. -/
def Pending.Good (isType : Text → Bool) (m : Nat) : Pending → Prop
  | .start => True
  | .got e => e.WellFormed isType ∧ m ≤ e.level isType
  | .right x op p =>
      (kind isType op).prec = some p ∧ x.WellFormed isType ∧ p.left ≤ x.level isType ∧ m ≤ p.level
  | .branch c q a k =>
      kind isType q = .question ∧ kind isType k = .colon ∧ c.WellFormed isType
        ∧ 3 ≤ c.level isType ∧ a.WellFormed isType ∧ m ≤ kConditional

/-- A step keeps the tokens, and what has been read stays well formed. -/
def Action.Sound (isType : Text → Bool) (m : Nat) (s : Pending) (ts : List Token) : Action → Prop
  | .stop => True
  | .fail => True
  | .go s' rest => s'.Good isType m ∧ s.toks ++ ts = s'.toks ++ rest
  | .sub m' inner next =>
      m' ≤ kUnary ∧ ∀ e rest s' rest', e.WellFormed isType → m' ≤ e.level isType →
        inner = e.toks ++ rest → next e rest = some (s', rest') →
          s'.Good isType m ∧ s.toks ++ ts = s'.toks ++ rest'

/-- An action at the start of an operand keeps the tokens and builds what is well formed. -/
theorem startAction_sound {m : Nat} (hm : m ≤ kUnary) (t : Token) (ts : List Token) :
    (startAction isType t ts).Sound isType m .start (t :: ts) := by
  have hprimary : m ≤ kPrimary := Nat.le_trans hm (by decide)
  have hoperand : (kind isType t).isUnary = true →
      (Action.sub kUnary ts fun e rest => some (.got (.unary (.op t) e), rest)).Sound isType m
        .start (t :: ts) := by
    intro ht
    refine ⟨Nat.le_refl _, fun e rest s' rest' he hle hts hnext => ?_⟩
    cases hnext
    exact ⟨⟨⟨ht, he, hle⟩, hm⟩, by rw [hts]; rfl⟩
  unfold startAction
  split
  case h_1 hopen =>
    split
    -- a cast
    case h_1 type r rest hcast =>
      obtain ⟨hts, htype, hr⟩ := castHead_cases hcast
      refine ⟨Nat.le_refl _, fun e rest' s' rest'' he hle heq hnext => ?_⟩
      cases hnext
      exact ⟨⟨⟨⟨hopen, htype, hr⟩, he, hle⟩, hm⟩, by rw [hts, heq]; rfl⟩
    case h_2 =>
      refine ⟨Nat.zero_le _, fun e rest s' rest' he _ hts hnext => ?_⟩
      obtain ⟨r, hrest, hr, hs'⟩ := close_cases hnext
      subst hs'
      exact ⟨⟨⟨hopen, he, hr⟩, hprimary⟩, by simp [Pending.toks, Expr.toks, hts, hrest]⟩
  case h_2 htype =>
    split
    case h_1 l ts =>
      split
      case isTrue hl =>
        refine ⟨Nat.zero_le _, fun e rest s' rest' he _ hts hnext => ?_⟩
        obtain ⟨r, hrest, hr, hs'⟩ := close_cases hnext
        subst hs'
        exact ⟨⟨⟨htype, hl, he, hr⟩, hprimary⟩, by simp [Pending.toks, Expr.toks, hts, hrest]⟩
      case isFalse => trivial
    case h_2 => trivial
  case h_3 hname => exact ⟨⟨Or.inl hname, hprimary⟩, rfl⟩
  case h_4 hnumber => exact ⟨⟨Or.inr hnumber, hprimary⟩, rfl⟩
  case h_5 ht => exact hoperand (by rw [ht]; rfl)
  case h_6 ht => exact hoperand (by rw [ht]; rfl)
  case h_7 ht => exact hoperand (by rw [ht]; rfl)
  case h_8 => trivial

/-- The same for an action behind an operand. -/
theorem suffixAction_sound {m : Nat} (hm : m ≤ kUnary) {e : Expr} (he : e.WellFormed isType)
    (hle : kPostfix ≤ e.level isType) (t : Token) (ts : List Token) :
    (suffixAction isType e t ts).Sound isType m (.got e) (t :: ts) := by
  have hpostfix : m ≤ kPostfix := Nat.le_trans hm (by decide)
  have happly : ∀ {inner : List Token} {k : Kind}, inner = ts →
      (∀ r, kind isType r = k → Brackets isType t r) →
      (Action.sub 0 inner fun i => close isType k fun r => .got (.apply e t i r)).Sound isType m
        (.got e) (t :: ts) := by
    intro inner k hinner hbrackets
    refine ⟨Nat.zero_le _, fun i rest s' rest' hi _ hts hnext => ?_⟩
    have ⟨r, hrest, hr, hs'⟩ := close_cases hnext
    subst hs'
    refine ⟨⟨⟨he, hle, hi, hbrackets r hr⟩, hpostfix⟩, ?_⟩
    rw [← hinner, hts, hrest]
    simp [Pending.toks, Expr.toks]
  unfold suffixAction
  split
  case h_1 ht => exact ⟨⟨⟨he, hle, ht⟩, hpostfix⟩, by simp [Pending.toks, Expr.toks, Suffix.toks]⟩
  case h_2 ht =>
    split
    case h_1 n ts =>
      split
      case isTrue hn =>
        exact ⟨⟨⟨he, hle, ht, hn⟩, hpostfix⟩, by simp [Pending.toks, Expr.toks, Suffix.toks]⟩
      case isFalse => trivial
    case h_2 => trivial
  case h_3 ht =>
    split
    case h_1 r rest =>
      split
      case isTrue hr =>
        exact ⟨⟨⟨he, hle, ht, hr⟩, hpostfix⟩, by simp [Pending.toks, Expr.toks, Suffix.toks]⟩
      case isFalse => exact happly rfl fun r hr => Or.inl ⟨ht, hr⟩
    case h_2 => trivial
  case h_4 ht => exact happly rfl fun r hr => Or.inr ⟨ht, hr⟩
  case h_5 => trivial

/-- The same for an action at an operator. -/
theorem operatorAction_sound {m : Nat} {e : Expr} (he : e.WellFormed isType) (t : Token)
    (ts : List Token) : (operatorAction isType m e t ts).Sound isType m (.got e) (t :: ts) := by
  unfold operatorAction
  split
  case h_1 ht =>
    split
    case isTrue hlevel =>
      refine ⟨Nat.zero_le _, fun a rest s' rest' ha _ hts hnext => ?_⟩
      have ⟨k, hrest, hk, hs'⟩ := close_cases hnext
      subst hs'
      exact ⟨⟨ht, hk, he, hlevel.2, ha, hlevel.1⟩, by simp [Pending.toks, hts, hrest]⟩
    case isFalse => trivial
  case h_2 p ht =>
    split
    case isTrue hlevel =>
      exact ⟨⟨by rw [ht]; rfl, he, hlevel.2, hlevel.1⟩, by simp [Pending.toks]⟩
    case isFalse => trivial
  case h_3 p ht =>
    split
    case isTrue hlevel =>
      exact ⟨⟨by rw [ht]; rfl, he, hlevel.2, hlevel.1⟩, by simp [Pending.toks]⟩
    case isFalse => trivial
  case h_4 => trivial

theorem prec_right_le {op : Token} {p : Prec} (h : (kind isType op).prec = some p) :
    p.right ≤ kUnary := by
  rcases prec_cases h with rfl | rfl | ⟨n, _, hn, rfl⟩
  · decide
  · decide
  · show n + 1 ≤ 14
    omega

/-- **Every action is sound.** -/
theorem action_sound {m : Nat} (hm : m ≤ kUnary) {s : Pending} (hs : s.Good isType m)
    (ts : List Token) : (action isType m s ts).Sound isType m s ts := by
  cases s with
  | start =>
      cases ts with
      | nil => trivial
      | cons t ts => exact startAction_sound hm t ts
  | got e =>
      cases ts with
      | nil => trivial
      | cons t ts =>
          rw [action]
          split
          · split
            case isTrue hle => exact suffixAction_sound hm hs.1 hle t ts
            case isFalse => trivial
          · exact operatorAction_sound hs.1 t ts
  | right x op p =>
      obtain ⟨hop, hx, hlex, hmp⟩ := hs
      refine ⟨prec_right_le hop, fun y rest s' rest' hy hley hts hnext => ?_⟩
      cases hnext
      refine ⟨⟨⟨p, hop, hx, hlex, hy, hley⟩, ?_⟩, by simp [Pending.toks, Expr.toks, hts]⟩
      rw [level_binary isType hop]
      exact hmp
  | branch c q a k =>
      obtain ⟨hq, hk, hc, hlec, ha, hmc⟩ := hs
      refine ⟨by decide, fun b rest s' rest' hb hleb hts hnext => ?_⟩
      cases hnext
      exact ⟨⟨⟨hq, hk, hc, hlec, ha, hb, hleb⟩, hmc⟩, by simp [Pending.toks, Expr.toks, hts]⟩

/-- **What is parsed is well formed, and has these tokens.** -/
theorem run_sound {fuel m : Nat} (hm : m ≤ kUnary) {s : Pending} (hs : s.Good isType m)
    {ts rest : List Token} {e : Expr} (h : run isType fuel m s ts = some (e, rest)) :
    e.WellFormed isType ∧ m ≤ e.level isType ∧ s.toks ++ ts = e.toks ++ rest := by
  induction fuel generalizing m s ts e rest with
  | zero => cases h
  | succ fuel ih =>
      have hsound := action_sound hm hs ts
      rw [run] at h
      cases hact : action isType m s ts with
      | stop =>
          simp only [hact, Option.map_eq_some_iff] at h
          obtain ⟨e', hexpr, heq⟩ := h
          cases heq
          cases s with
          | got e'' =>
              cases hexpr
              exact ⟨hs.1, hs.2, rfl⟩
          | start => cases hexpr
          | right x op p => cases hexpr
          | branch c q a k => cases hexpr
      | fail =>
          simp only [hact] at h
          cases h
      | go s' ts' =>
          rw [hact] at hsound
          simp only [hact] at h
          obtain ⟨hgood, htoks⟩ := hsound
          rw [htoks]
          exact ih hm hgood h
      -- the nested expression is sound, and so is what is made of it
      | sub m' inner next =>
          rw [hact] at hsound
          simp only [hact, Option.bind_eq_some_iff] at h
          obtain ⟨r, hr, n, hn, hrun⟩ := h
          obtain ⟨he, hle, hinner⟩ : r.1.WellFormed isType ∧ m' ≤ r.1.level isType ∧ inner = r.1.toks ++ r.2 :=
            ih (s := .start) (e := r.1) hsound.1 trivial hr
          obtain ⟨hgood, htoks⟩ := hsound.2 r.1 r.2 n.1 n.2 he hle hinner hn
          rw [htoks]
          exact ih hm hgood hrun

/-! ## §2. What is well formed is parsed. -/

/-- A caller that asks for level `m` takes no more than `e`. -/
def Stops (isType : Text → Bool) (m : Nat) (e : Expr) (rest : List Token) : Prop :=
  action isType m (.got e) rest = .stop

/-- The open ends of the expression take nothing of what follows. -/
def Closed (isType : Text → Bool) : Expr → List Token → Prop
  | .unary _ e, rest => Closed isType e rest ∧ Stops isType kUnary e rest
  | .binary _ op y, rest =>
      Closed isType y rest ∧ Stops isType ((kind isType op).prec.elim 0 Prec.right) y rest
  | .cond _ _ _ _ b, rest => Closed isType b rest ∧ Stops isType 1 b rest
  | _, _ => True

/-- Where the parser stops it returns what it has. -/
theorem parseFrom_stop {m : Nat} {e : Expr} {rest : List Token} (h : Stops isType m e rest) :
    parseFrom isType m (.got e) rest = some (e, rest) := by
  have hact : action isType m (.got e) rest = .stop := h
  rw [parseFrom_eq, hact]
  rfl

/-- Nothing of what follows is ever taken. -/
def Ends (isType : Text → Bool) (rest : List Token) : Prop := ∀ m e, Stops isType m e rest

/-- Where an expression ends it is closed. -/
theorem Ends.closed {rest : List Token} (h : Ends isType rest) (e : Expr) : Closed isType e rest := by
  induction e with
  | unary p e ih => exact ⟨ih, h _ _⟩
  | binary x op y _ ih => exact ⟨ih, h _ _⟩
  | cond c q a k b _ _ ih => exact ⟨ih, h _ _⟩
  | atom => trivial
  | paren => trivial
  | construct => trivial
  | suffix => trivial
  | apply => trivial

theorem ends_nil : Ends isType [] := fun _ _ => rfl

theorem ends_close {r : Token} (h : kind isType r = .closeParen ∨ kind isType r = .closeBracket
    ∨ kind isType r = .colon) (rest : List Token) : Ends isType (r :: rest) := by
  intro m e
  rcases h with h | h | h <;> simp [Stops, action, operatorAction, Kind.isSuffix, h]

/-- An operator that binds less than the caller asks is not taken. -/
theorem stops_operator {t : Token} {p : Prec} (h : (kind isType t).prec = some p) {m : Nat}
    (hm : p.level < m) (e : Expr) (rest : List Token) : Stops isType m e (t :: rest) := by
  have hno : ¬ (m ≤ p.level ∧ p.left ≤ e.level isType) := fun hle => absurd hle.1 (by omega)
  cases hk : kind isType t with
  | sign q =>
      rw [hk] at h
      cases h
      simp [Stops, action, operatorAction, Kind.isSuffix, hk, hno]
  | operator q =>
      rw [hk] at h
      cases h
      simp [Stops, action, operatorAction, Kind.isSuffix, hk, hno]
  | _ =>
      rw [hk] at h
      cases h

theorem stops_question {t : Token} (h : kind isType t = .question) {m : Nat}
    (hm : kConditional < m) (e : Expr) (rest : List Token) : Stops isType m e (t :: rest) := by
  have hno : ¬ (m ≤ kConditional ∧ 3 ≤ e.level isType) := fun hle => absurd hle.1 (by omega)
  simp [Stops, action, operatorAction, Kind.isSuffix, h, hno]

/-- **An open end binds tighter than what can follow.**  `bound` is the level of
what follows, `least` the least level of the operand in front of it. -/
theorem closed_of_level {rest : List Token} {bound least : Nat}
    (htable : least = 0 ∧ bound = 0 ∨ bound < least ∧ least = 3 ∨ least = bound ∧ 3 ≤ bound ∧ bound ≤ 12)
    (hstops : ∀ m e, bound < m → Stops isType m e rest) {e : Expr} (he : e.WellFormed isType)
    (hle : least ≤ e.level isType) : Closed isType e rest := by
  induction e with
  | unary p e ih =>
      have ⟨_, hwf, hlevel⟩ := he
      have hunary : kUnary = 14 := rfl
      exact ⟨ih hwf (by omega), hstops _ _ (by omega)⟩
  -- the right operand binds as tight as its operator asks
  | binary x op y _ ih =>
      have ⟨p, hp, _, _, hy, hley⟩ := he
      rw [level_binary isType hp] at hle
      rw [Closed, hp]
      show Closed isType y rest ∧ Stops isType p.right y rest
      have hright : bound < p.right ∧ least ≤ p.right := by
        rcases prec_cases hp with rfl | rfl | ⟨n, hn, hn', rfl⟩
        · have hle : least ≤ 0 := hle
          show bound < 1 ∧ least ≤ 1
          omega
        · have hle : least ≤ 1 := hle
          show bound < 1 ∧ least ≤ 1
          omega
        · have hle : least ≤ n := hle
          show bound < n + 1 ∧ least ≤ n + 1
          omega
      exact ⟨ih hy (by omega), hstops _ _ hright.1⟩
  | cond c q a k b _ _ ih =>
      have ⟨_, _, _, _, _, hb, hleb⟩ := he
      have hle : least ≤ 2 := hle
      exact ⟨ih hb (by omega), hstops _ _ (by omega)⟩
  | atom => trivial
  | paren => trivial
  | construct => trivial
  | suffix => trivial
  | apply => trivial

/-- In front of an operator its left operand is closed. -/
theorem closed_operator {t : Token} {p : Prec} (h : (kind isType t).prec = some p) {e : Expr}
    (he : e.WellFormed isType) (hle : p.left ≤ e.level isType) (rest : List Token) :
    Closed isType e (t :: rest) := by
  refine closed_of_level ?_ (fun m e hm => stops_operator h hm e rest) he hle
  rcases prec_cases h with rfl | rfl | ⟨n, hn, hn', rfl⟩
  · exact Or.inl ⟨rfl, rfl⟩
  · exact Or.inr (Or.inl ⟨by decide, rfl⟩)
  · exact Or.inr (Or.inr ⟨rfl, hn, hn'⟩)

/-- In front of a `?` the condition is closed. -/
theorem closed_question {t : Token} (h : kind isType t = .question) {e : Expr}
    (he : e.WellFormed isType) (hle : 3 ≤ e.level isType) (rest : List Token) :
    Closed isType e (t :: rest) :=
  closed_of_level (Or.inr (Or.inl ⟨by decide, rfl⟩)) (fun m e hm => stops_question h hm e rest) he hle

theorem prec_level_le_mul {op : Token} {p : Prec} (h : (kind isType op).prec = some p) :
    p.level ≤ 12 := by
  rcases prec_cases h with rfl | rfl | ⟨n, _, hn, rfl⟩
  · decide
  · decide
  · exact hn

/-- A postfix operand has no open end. -/
theorem closed_of_postfix_level {e : Expr} (he : e.WellFormed isType) (hle : kPostfix ≤ e.level isType)
    (rest : List Token) : Closed isType e rest := by
  cases e with
  | unary p e => exact absurd hle (by show ¬ 15 ≤ 14; omega)
  | binary x op y =>
      have ⟨p, hp, _⟩ := he
      rw [level_binary isType hp] at hle
      have hmax := prec_level_le_mul hp
      have hpostfix : kPostfix = 15 := rfl
      omega
  | cond => exact absurd hle (by show ¬ 15 ≤ 2; omega)
  | atom => trivial
  | paren => trivial
  | construct => trivial
  | suffix => trivial
  | apply => trivial

/-- How a well-formed expression begins: a type is followed by a parenthesis. -/
theorem toks_head {e : Expr} (he : e.WellFormed isType) :
    ∃ t ts, e.toks = t :: ts ∧ kind isType t ≠ .closeParen
      ∧ (kind isType t = .type → ∃ u us, ts = u :: us ∧ kind isType u = .openParen) := by
  -- an operand in front: the expression begins the way the operand does
  have hfront : ∀ {x : Expr} (rest : List Token), x.WellFormed isType →
      (x.WellFormed isType → ∃ t ts, x.toks = t :: ts ∧ kind isType t ≠ .closeParen
        ∧ (kind isType t = .type → ∃ u us, ts = u :: us ∧ kind isType u = .openParen)) →
      ∃ t ts, x.toks ++ rest = t :: ts ∧ kind isType t ≠ .closeParen
        ∧ (kind isType t = .type → ∃ u us, ts = u :: us ∧ kind isType u = .openParen) := by
    intro x rest hx ih
    have ⟨t, ts, htoks, hclose, htype⟩ := ih hx
    refine ⟨t, ts ++ rest, by rw [htoks]; rfl, hclose, fun ht => ?_⟩
    have ⟨u, us, hts, hu⟩ := htype ht
    exact ⟨u, us ++ rest, by rw [hts]; rfl, hu⟩
  induction e with
  | atom t =>
      refine ⟨t, [], rfl, ?_, ?_⟩
      · rcases he with h | h <;> simp [h]
      · intro ht
        rcases he with h | h <;> simp [ht] at h
  | paren l e r =>
      have ⟨hl, _, _⟩ := he
      exact ⟨l, e.toks ++ [r], rfl, by simp [hl], by simp [hl]⟩
  | construct type l args r =>
      have ⟨htype, hl, _, _⟩ := he
      exact ⟨type, l :: (args.toks ++ [r]), rfl, by simp [htype], fun _ => ⟨l, _, rfl, hl⟩⟩
  | unary p e =>
      have ⟨hp, _, _⟩ := he
      cases p with
      | op t =>
          have ht : (kind isType t).isUnary = true := hp
          refine ⟨t, e.toks, rfl, ?_, ?_⟩
          · intro h
            rw [h] at ht
            cases ht
          · intro h
            rw [h] at ht
            cases ht
      | cast l type r =>
          have ⟨hl, _, _⟩ := hp
          exact ⟨l, type :: r :: e.toks, rfl, by simp [hl], by simp [hl]⟩
  | binary x op y ih _ =>
      have ⟨_, _, hx, _⟩ := he
      exact hfront _ hx ih
  | cond c q a k b ih _ _ =>
      have ⟨_, _, hc, _⟩ := he
      exact hfront _ hc ih
  | suffix e s ih => exact hfront _ he.1 ih
  | apply e l i r ih _ => exact hfront _ he.1 ih

/-- A parenthesised expression is not taken for a cast. -/
theorem castHead_toks {e : Expr} (he : e.WellFormed isType) (rest : List Token) :
    castHead isType (e.toks ++ rest) = none := by
  have ⟨t, ts, htoks, _, htype⟩ := toks_head he
  cases hc : castHead isType (e.toks ++ rest) with
  | none => rfl
  | some c =>
      have ⟨ty, r, rest'⟩ := c
      have ⟨heq, hty, hr⟩ := castHead_cases hc
      rw [htoks, List.cons_append] at heq
      have ⟨hfirst, hsecond⟩ := List.cons.inj heq
      have ⟨u, us, hts, hu⟩ := htype (by rw [hfirst, hty])
      rw [hts, List.cons_append] at hsecond
      rw [(List.cons.inj hsecond).1, hr] at hu
      cases hu

theorem action_operator {op : Token} {p : Prec} (hop : (kind isType op).prec = some p) {m : Nat}
    (hm : m ≤ p.level) {x : Expr} (hx : p.left ≤ x.level isType) (rest : List Token) :
    action isType m (.got x) (op :: rest) = .go (.right x op p) rest := by
  cases hk : kind isType op with
  | sign q =>
      rw [hk] at hop
      cases hop
      simp [action, operatorAction, Kind.isSuffix, hk, hm, hx]
  | operator q =>
      rw [hk] at hop
      cases hop
      simp [action, operatorAction, Kind.isSuffix, hk, hm, hx]
  | _ =>
      rw [hk] at hop
      cases hop

theorem prec_level_le {op : Token} {p : Prec} (h : (kind isType op).prec = some p) :
    p.level ≤ p.left := by
  rcases prec_cases h with rfl | rfl | ⟨n, _, _, rfl⟩
  · decide
  · decide
  · exact Nat.le_refl _

/-- An operand that is read goes to what waits for it. -/
theorem parseFrom_sub {m m' : Nat} {s : Pending} {ts inner rest : List Token} {e : Expr}
    {next : Expr → List Token → Option (Pending × List Token)}
    (hact : action isType m s ts = .sub m' inner next)
    (hread : parseFrom isType m' .start inner = some (e, rest)) :
    parseFrom isType m s ts = (next e rest).bind fun n => parseFrom isType m n.1 n.2 := by
  rw [parseFrom_eq, hact]
  simp only [hread, Option.bind_some]

/-- An operand up to a closing token, which ends all that is open in it. -/
theorem parseFrom_enclosed {m : Nat} {s : Pending} {ts rest : List Token} {e : Expr} {r : Token}
    {k : Kind} {f : Expr → Token → Pending} (hr : kind isType r = k)
    (hk : k = .closeParen ∨ k = .closeBracket ∨ k = .colon)
    (hact : action isType m s ts = .sub 0 (e.toks ++ (r :: rest)) fun e => close isType k (f e))
    (hread : ∀ {rest : List Token}, Closed isType e rest →
      parseFrom isType 0 .start (e.toks ++ rest) = parseFrom isType 0 (.got e) rest) :
    parseFrom isType m s ts = parseFrom isType m (f e r) rest := by
  rw [← hr] at hk
  have hends := ends_close hk rest
  rw [parseFrom_sub hact ((hread (hends.closed e)).trans (parseFrom_stop (hends 0 e)))]
  simp only [close, hr, if_true, Option.bind_some]

theorem action_unary {m : Nat} {t : Token} (ht : (kind isType t).isUnary = true) (ts : List Token) :
    action isType m .start (t :: ts)
      = .sub kUnary ts fun e rest => some (.got (.unary (.op t) e), rest) := by
  cases hk : kind isType t with
  | step => simp [action, startAction, hk]
  | sign p => simp [action, startAction, hk]
  | negation => simp [action, startAction, hk]
  | _ =>
      rw [hk] at ht
      cases ht

/-- A suffix without an operand. -/
theorem parseFrom_suffix {e : Expr} {s : Suffix} (hs : s.WellFormed isType)
    (hle : kPostfix ≤ e.level isType) (m : Nat) (rest : List Token) :
    parseFrom isType m (.got e) (s.toks ++ rest) = parseFrom isType m (.got (.suffix e s)) rest := by
  cases s with
  | step t =>
      have ht : kind isType t = .step := hs
      have hact : action isType m (.got e) (t :: rest) = .go (.got (.suffix e (.step t))) rest := by
        simp [action, suffixAction, Kind.isSuffix, ht, hle]
      rw [Suffix.toks, List.singleton_append, parseFrom_eq, hact]
  | member dot name =>
      obtain ⟨hdot, hname⟩ := hs
      have hact : action isType m (.got e) (dot :: name :: rest) =
          .go (.got (.suffix e (.member dot name))) rest := by
        simp [action, suffixAction, Kind.isSuffix, hdot, hname, hle]
      rw [Suffix.toks, List.cons_append, List.singleton_append, parseFrom_eq, hact]
  | nullary l r =>
      obtain ⟨hl, hr⟩ := hs
      have hact : action isType m (.got e) (l :: r :: rest) =
          .go (.got (.suffix e (.nullary l r))) rest := by
        simp [action, suffixAction, Kind.isSuffix, hl, hr, hle]
      rw [Suffix.toks, List.cons_append, List.singleton_append, parseFrom_eq, hact]

/-- **A well-formed expression is parsed**, whatever follows, if its open ends
take nothing of that. -/
theorem parseFrom_toks {e : Expr} (he : e.WellFormed isType) {m : Nat} (hm : m ≤ e.level isType)
    {rest : List Token} (hclosed : Closed isType e rest) :
    parseFrom isType m .start (e.toks ++ rest) = parseFrom isType m (.got e) rest := by
  induction e generalizing m rest with
  | atom t =>
      have hact : action isType m .start (t :: rest) = .go (.got (.atom t)) rest := by
        rcases he with h | h <;> simp [action, startAction, h]
      rw [Expr.toks, List.singleton_append, parseFrom_eq, hact]
  | paren l e r ih =>
      obtain ⟨hl, hwf, hr⟩ := he
      have hact : action isType m .start (l :: (e.toks ++ (r :: rest))) =
          .sub 0 (e.toks ++ (r :: rest)) fun e => close isType .closeParen fun r => .got (.paren l e r) := by
        simp [action, startAction, hl, castHead_toks hwf]
      rw [Expr.toks, List.cons_append, List.append_assoc, List.singleton_append]
      exact parseFrom_enclosed hr (.inl rfl) hact (ih hwf (Nat.zero_le _))
  | construct type l args r ih =>
      obtain ⟨htype, hl, hwf, hr⟩ := he
      have hact : action isType m .start (type :: l :: (args.toks ++ (r :: rest))) =
          .sub 0 (args.toks ++ (r :: rest)) fun e =>
            close isType .closeParen fun r => .got (.construct type l e r) := by
        simp [action, startAction, htype, hl]
      rw [Expr.toks, List.cons_append, List.cons_append, List.append_assoc, List.singleton_append]
      exact parseFrom_enclosed hr (.inl rfl) hact (ih hwf (Nat.zero_le _))
  | unary p e ih =>
      obtain ⟨hp, hwf, hle⟩ := he
      obtain ⟨hclosedInner, hstops⟩ := hclosed
      -- the operand is read at the level of a prefix
      have hinner := (ih hwf hle hclosedInner).trans (parseFrom_stop hstops)
      cases p with
      | op t =>
          rw [Expr.toks, Prefix.toks, List.singleton_append, List.cons_append,
            parseFrom_sub (action_unary hp _) hinner]
          rfl
      | cast l type r =>
          obtain ⟨hl, htype, hr⟩ := hp
          have hact : action isType m .start (l :: type :: r :: (e.toks ++ rest)) =
              .sub kUnary (e.toks ++ rest) fun e rest =>
                some (.got (.unary (.cast l type r) e), rest) := by
            simp [action, startAction, hl, castHead, htype, hr]
          rw [Expr.toks, Prefix.toks, List.cons_append, List.cons_append, List.cons_append,
            List.cons_append, List.cons_append, List.cons_append, List.nil_append,
            parseFrom_sub hact hinner]
          rfl
  | binary x op y ihx ihy =>
      obtain ⟨p, hop, hx, hlex, hy, hley⟩ := he
      rw [level_binary isType hop] at hm
      rw [Closed, hop] at hclosed
      obtain ⟨hclosedy, hstopsy⟩ := hclosed
      -- the left operand is read for the same caller
      have hmx : m ≤ x.level isType := Nat.le_trans (Nat.le_trans hm (prec_level_le hop)) hlex
      have hright : parseFrom isType p.right .start (y.toks ++ rest) = some (y, rest) :=
        (ihy hy hley hclosedy).trans (parseFrom_stop hstopsy)
      have hact : action isType m (.right x op p) (y.toks ++ rest) =
          .sub p.right (y.toks ++ rest) fun y rest => some (.got (.binary x op y), rest) := rfl
      rw [Expr.toks, List.append_assoc, List.cons_append,
        ihx hx hmx (closed_operator hop hx hlex _), parseFrom_eq, action_operator hop hm hlex]
      simp only
      rw [parseFrom_sub hact hright]
      rfl
  | cond c q a k b ihc iha ihb =>
      obtain ⟨hq, hk, hc, hlec, ha, hb, hleb⟩ := he
      have hm : m ≤ kConditional := hm
      obtain ⟨hclosedb, hstopsb⟩ := hclosed
      -- first the condition, then what stands between `?` and `:`, then the rest
      have hmc : m ≤ c.level isType := Nat.le_trans (Nat.le_trans hm (by decide)) hlec
      have hlast : parseFrom isType 1 .start (b.toks ++ rest) = some (b, rest) :=
        (ihb hb hleb hclosedb).trans (parseFrom_stop hstopsb)
      have hfirst : action isType m (.got c) (q :: (a.toks ++ (k :: (b.toks ++ rest)))) =
          .sub 0 (a.toks ++ (k :: (b.toks ++ rest))) fun a =>
            close isType .colon fun k => .branch c q a k := by
        simp [action, operatorAction, Kind.isSuffix, hq, hm, hlec]
      have hsecond : action isType m (.branch c q a k) (b.toks ++ rest) =
          .sub 1 (b.toks ++ rest) fun b rest => some (.got (.cond c q a k b), rest) := rfl
      rw [Expr.toks, List.append_assoc, List.cons_append, List.append_assoc, List.cons_append,
        ihc hc hmc (closed_question hq hc hlec _),
        parseFrom_enclosed hk (.inr (.inr rfl)) hfirst (iha ha (Nat.zero_le _)),
        parseFrom_sub hsecond hlast]
      rfl
  -- a suffix is read behind the operand, at the caller's level
  | suffix e s ih =>
      obtain ⟨hwf, hle, hs⟩ := he
      have hinner := ih hwf (Nat.le_trans hm hle) (closed_of_postfix_level hwf hle (s.toks ++ rest))
      rw [Expr.toks, List.append_assoc, hinner]
      exact parseFrom_suffix hs hle m rest
  | apply e l i r ihe ihi =>
      obtain ⟨hwf, hle, hi, hbrackets⟩ := he
      have hinner := ihe hwf (Nat.le_trans hm hle)
        (closed_of_postfix_level hwf hle (l :: (i.toks ++ (r :: rest))))
      obtain ⟨t, ts, htoks, hclose, _⟩ := toks_head hi
      rw [Expr.toks, List.append_assoc, List.cons_append, List.append_assoc, List.singleton_append,
        hinner]
      -- a call or a subscript
      rcases hbrackets with ⟨hl, hr⟩ | ⟨hl, hr⟩
      · have hact : action isType m (.got e) (l :: (i.toks ++ (r :: rest))) =
            .sub 0 (i.toks ++ (r :: rest)) fun i => close isType .closeParen fun r => .got (.apply e l i r) := by
          rw [htoks]
          simp [action, suffixAction, Kind.isSuffix, hl, hle, hclose]
        exact parseFrom_enclosed hr (.inl rfl) hact (ihi hi (Nat.zero_le _))
      · have hact : action isType m (.got e) (l :: (i.toks ++ (r :: rest))) =
            .sub 0 (i.toks ++ (r :: rest)) fun i => close isType .closeBracket fun r => .got (.apply e l i r) := by
          simp [action, suffixAction, Kind.isSuffix, hl, hle]
        exact parseFrom_enclosed hr (.inr (.inl rfl)) hact (ihi hi (Nat.zero_le _))

/-! ## §3. Parsing is printing backwards. -/

/-- **The tokens of a well-formed expression are parsed as it.** -/
theorem parse_toks {e : Expr} (he : e.WellFormed isType) : parse isType e.toks = some e := by
  have h := parseFrom_toks he (Nat.zero_le _) (ends_nil.closed e)
  rw [List.append_nil] at h
  rw [parse, h, parseFrom_stop (ends_nil 0 e)]

/-- **Parsing is printing backwards.** -/
theorem parse_iff {ts : List Token} {e : Expr} :
    parse isType ts = some e ↔ e.WellFormed isType ∧ e.toks = ts := by
  constructor
  · intro h
    rw [parse] at h
    split at h
    case h_1 e' hrun =>
      cases h
      have ⟨hwf, _, htoks⟩ := run_sound (Nat.zero_le _) (show Pending.start.Good isType 0 from trivial) hrun
      rw [List.append_nil] at htoks
      exact ⟨hwf, htoks.symm⟩
    case h_2 => cases h
  · rintro ⟨he, rfl⟩
    exact parse_toks he

end ShaderClippy.Hlsl
