/-
  ShaderClippy.Rules.BankConflict

  **`groupshared-stride-non-32-bank-conflict`**: an array in groupshared memory
  is indexed by a multiple of the thread id.

  Two questions about an index. With which stride do the lanes go through the
  memory: `extract_stride` answers with the first literal that multiplies
  something with a thread id in it, and looks at nothing else in the sum
  (`extractStride_sound_iff`). How many lanes meet in a bank: `conflict_factor`
  computes the number of banks the lanes are spread over instead
  (`conflictFactor_wrong`).
-/
import ShaderClippy.Hlsl.Arith
import ShaderClippy.Lib.AffineTerm
import ShaderClippy.Lib.BankLoad
import ShaderClippy.Rules.DigitLoop
import ShaderClippy.Rules.NumericLiteral

namespace ShaderClippy.Rules.BankConflict

open AffineTerm Hlsl

/-! ## §1. The conflict factor. -/

def kBankCount : Nat := 32

/-- The loop of `conflict_factor`. -/
def euclidLoop (a b : Nat) : Nat := if _h : b = 0 then a else euclidLoop b (a % b)
  termination_by b
  decreasing_by exact Nat.mod_lt a (Nat.pos_of_ne_zero _h)

/-- `conflict_factor`. -/
def conflictFactor (stride : Nat) : Nat :=
  if stride = 0 then 1 else kBankCount / euclidLoop stride kBankCount

/-- `is_target_stride`. -/
def isTargetStride (stride : Nat) : Bool :=
  stride == 2 || stride == 4 || stride == 8 || stride == 16 || stride == 64

theorem euclidLoop_eq_gcd (a b : Nat) : euclidLoop a b = Nat.gcd b a := by
  induction b using Nat.strong_induction_on generalizing a with
  | _ b ih =>
      rw [euclidLoop]
      by_cases hb : b = 0
      · rw [dif_pos hb, hb, Nat.gcd_zero_left]
      · rw [dif_neg hb, ih (a % b) (Nat.mod_lt a (Nat.pos_of_ne_zero hb)), ← Nat.gcd_rec]

/-- The number of banks over the lanes that meet in one. -/
theorem conflictFactor_eq {stride : Nat} (h : 0 < stride) :
    conflictFactor stride = kBankCount / BankLoad.maxLoad kBankCount stride := by
  rw [conflictFactor, if_neg (by omega), euclidLoop_eq_gcd, Nat.gcd_comm,
    BankLoad.maxLoad_eq_gcd (by decide)]

theorem maxLoad_eq (stride : Nat) : BankLoad.maxLoad kBankCount stride = Nat.gcd stride kBankCount :=
  BankLoad.maxLoad_eq_gcd (by decide)

/-- The factor times the lanes in a bank is 32, and 32 is no square. -/
theorem conflictFactor_ne_maxLoad {stride : Nat} (h : 0 < stride) :
    conflictFactor stride ≠ BankLoad.maxLoad kBankCount stride := by
  intro heq
  rw [conflictFactor_eq h, maxLoad_eq] at heq
  have hdvd : Nat.gcd stride kBankCount ∣ kBankCount := Nat.gcd_dvd_right _ _
  have hsquare : Nat.gcd stride kBankCount * Nat.gcd stride kBankCount = kBankCount := by
    have hcut := Nat.div_mul_cancel hdvd
    rw [heq] at hcut
    exact hcut
  have hsmall : Nat.gcd stride kBankCount ≤ kBankCount := Nat.le_of_dvd (by decide) hdvd
  have hnone : ∀ g ≤ kBankCount, g * g ≠ kBankCount := by decide
  exact hnone _ hsmall hsquare

/-- **The factor is never the largest number of lanes in a bank**, which is
`gcd stride 32`. -/
theorem conflictFactor_wrong {stride : Nat} (h : 0 < stride) :
    BankLoad.maxLoad kBankCount stride = Nat.gcd stride kBankCount
      ∧ conflictFactor stride ≠ BankLoad.maxLoad kBankCount stride :=
  ⟨maxLoad_eq stride, conflictFactor_ne_maxLoad h⟩

theorem conflictFactor_wrong_four :
    BankLoad.maxLoad kBankCount 4 = Nat.gcd 4 kBankCount
      ∧ conflictFactor 4 ≠ BankLoad.maxLoad kBankCount 4 :=
  conflictFactor_wrong (by decide)

/-- **Stride two**: two lanes to a bank, reported as sixteen. -/
theorem strideTwo_sixteenWay :
    conflictFactor 2 = 16 ∧ BankLoad.maxLoad kBankCount 2 = 2 ∧ Nat.gcd 2 kBankCount = 2 := by
  rw [conflictFactor_eq (by decide), maxLoad_eq]
  decide

/-! ## §2. The stride of an index. -/

/-- `is_id_boundary`. -/
def isIdBoundary (c : Char) : Bool :=
  !(('a' ≤ c && c ≤ 'z') || ('A' ≤ c && c ≤ 'Z') || ('0' ≤ c && c ≤ '9') || c == '_')

/-- The search of `has_keyword`, behind the character `prev`. -/
def hasKeywordFrom (keyword : Text) (prev : Option Char) (text : Text) : Bool :=
  (keyword.isPrefixOf text && prev.all isIdBoundary
      && (text.drop keyword.length).head?.all isIdBoundary)
    || match text with
      | [] => false
      | c :: cs => hasKeywordFrom keyword (some c) cs

/-- `has_keyword`. -/
def hasKeyword (text keyword : Text) : Bool := hasKeywordFrom keyword none text

def kSeeds : List Text :=
  ["tid", "gid", "gi", "dtid", "gtid", "groupIndex", "DTid", "GTid", "GI", "GroupIndex", "lane",
    "laneIndex"].map String.toList

/-- `looks_like_thread_id`. -/
def looksLikeThreadId (text : Text) : Bool :=
  kSeeds.any (hasKeyword text)
    || hasKeyword text "SV_DispatchThreadID".toList || hasKeyword text "SV_GroupThreadID".toList
    || hasKeyword text "SV_GroupIndex".toList || hasKeyword text "WaveGetLaneIndex".toList

/-- One digit of `parse_unsigned_literal`: no more than 32 bits. -/
def unsignedStep (value : Option Nat) (digit : Nat) : Option Nat :=
  value.bind fun n => if n * 10 + digit > 0xFFFFFFFF then none else some (n * 10 + digit)

/-- `parse_unsigned_literal`. -/
def parseUnsignedLiteral (text : Text) : Option Nat :=
  let t := skipOptionalPlus text
  if (t.takeWhile Char.isDigit).isEmpty then none
  else
    let r := digitLoop unsignedStep (some 0) t
    if r.2.all fun c => c == 'u' || c == 'U' || c == 'l' || c == 'L' then r.1 else none

variable (isType : Text → Bool)

/-- A literal beside an operand that mentions a thread id: the literal. -/
def literalTimes (literal operand : Expr) : Option Nat :=
  ((numberOf isType literal).bind parseUnsignedLiteral).filter fun _ =>
    looksLikeThreadId (nodeText operand)

/-- `extract_stride`; `0` for no stride. -/
def extractStride : Expr → Nat
  | .binary left op right =>
      if op.body = ['*'] then
        ((literalTimes isType left right).or (literalTimes isType right left)).getD 0
      else if op.body = ['+'] ∨ op.body = ['-'] then
        if extractStride left ≠ 0 then extractStride left else extractStride right
      else if op.body = ['<', '<'] then
        match (numberOf isType right).bind parseUnsignedLiteral with
        | some shift =>
            if shift < 32 ∧ looksLikeThreadId (nodeText left) = true then 2 ^ shift else 0
        | none => 0
      else 0
  | .paren _ e _ => extractStride e
  | _ => 0

/-- The message of `scan_subscripts`. -/
def conflictMessage (stride factor : Nat) : Text :=
  "groupshared access at stride ".toList ++ Nat.toDigits 10 stride ++ " produces a ".toList
    ++ Nat.toDigits 10 factor
    ++ "-way LDS bank conflict on 32-bank GPUs (RDNA / NVIDIA / ".toList
    ++ "Xe-HPG); restructure AoS to SoA or pad inner dimension to ".toList
    ++ "be coprime with 32".toList

/-- What `scan_subscripts` says about an index into groupshared memory. -/
def strideMessage (index : Expr) : Option Text :=
  let stride := extractStride isType index
  if stride ≠ 0 ∧ isTargetStride stride = true then
    some (conflictMessage stride (conflictFactor stride))
  else none

/-- **Every message names another number than that of the lanes in a bank.** -/
theorem strideMessage_wrong {index : Expr} {message : Text}
    (h : strideMessage isType index = some message) :
    ∃ stride factor, message = conflictMessage stride factor
      ∧ factor ≠ BankLoad.maxLoad kBankCount stride := by
  simp only [strideMessage] at h
  split at h
  case isTrue hstride =>
    cases h
    exact ⟨_, _, rfl, conflictFactor_ne_maxLoad (Nat.pos_of_ne_zero hstride.1)⟩
  case isFalse => cases h

/-! ## §3. Index expressions. -/

/-- The meaning of an index: sums, differences and products of the thread id
(an identifier or a member of one, by its text), integer literals and other
identifiers. -/
def readIndex (threadId : Text) : Expr → Option (Term Text)
  | .atom t =>
      match kind isType t with
      | .number =>
          if literalType t.body = .float then none else some (.const (integerValue t.body))
      | .name => some (if t.body = threadId then .hole else .var t.body)
      | _ => none
  | .suffix e (.member dot name) =>
      if nodeText (.suffix e (.member dot name)) = threadId then some .hole else none
  | .paren _ e _ => readIndex threadId e
  | .binary x op y =>
      match readIndex threadId x, readIndex threadId y with
      | some a, some b =>
          if op.body = ['+'] then some (.add a b)
          else if op.body = ['-'] then some (.sub a b)
          else if op.body = ['*'] then some (.mul a b)
          else none
      | _, _ => none
  | _ => none

/-- What `extract_stride` promises: the index grows by the stride with the
thread id, and by nothing else. -/
def StrideSound (e : Expr) (index : Term Text) : Prop :=
  ∀ s : Nat, extractStride isType e = s → s ≠ 0 → Affine Int index s

/-- A product in a sum: `sign * value * factor + rest`. `number` is what the
rule reads in the literal, `value` is the literal's value. -/
structure ScaledTerm where
  sign : Int
  number : Nat
  value : Int
  factor : Term Text
  rest : Term Text
  deriving DecidableEq

/-- The product a literal makes with an operand. -/
def scaledTerm (threadId : Text) (literal operand : Expr) : Option ScaledTerm :=
  (literalTimes isType literal operand).bind fun number =>
    match readIndex isType threadId literal, readIndex isType threadId operand with
    | some (.const value), some factor => some ⟨1, number, value, factor, .const 0⟩
    | _, _ => none

/-- The first product of the sum, in reading order, of a literal and an operand
that mentions a thread id; a literal `0` does not count. -/
def firstScaled (threadId : Text) : Expr → Option ScaledTerm
  | .binary x op y =>
      let a := (readIndex isType threadId x).getD (.const 0)
      let b := (readIndex isType threadId y).getD (.const 0)
      if op.body = ['*'] then
        ((scaledTerm isType threadId x y).or (scaledTerm isType threadId y x)).filter
          fun p => p.number ≠ 0
      else if op.body = ['+'] then
        ((firstScaled threadId x).map fun p => { p with rest := .add p.rest b }).or
          ((firstScaled threadId y).map fun p => { p with rest := .add a p.rest })
      else
        ((firstScaled threadId x).map fun p => { p with rest := .sub p.rest b }).or
          ((firstScaled threadId y).map fun p => { p with sign := -p.sign, rest := .sub a p.rest })
  | .paren _ e _ => firstScaled threadId e
  | _ => none

/-- The whole sum, with like terms collected. -/
noncomputable def ScaledTerm.poly (p : ScaledTerm) : Polynomial (MvPolynomial Text Int) :=
  Polynomial.C (MvPolynomial.C (p.sign * p.value)) * p.factor.poly + p.rest.poly

/-- Product and rest together go with the thread id as the number says: in
`sign * value * factor + rest`, with like terms collected, the thread id has
this coefficient, and its higher powers have none. -/
def ScaledTerm.Undistorted (p : ScaledTerm) : Prop := HasSlope p.poly p.number

/-! ## §4. What the extraction finds. -/

variable {isType} {threadId : Text}

/-- A number in an index is a constant. -/
theorem readIndex_number {e : Expr} {text : Text} (hnumber : numberOf isType e = some text)
    {a : Term Text} (ha : readIndex isType threadId e = some a) : ∃ v, a = .const v := by
  unfold numberOf at hnumber
  split at hnumber
  case h_1 t =>
    split at hnumber
    case isTrue hkind =>
      rw [readIndex, hkind] at ha
      dsimp only at ha
      split at ha
      · cases ha
      · exact ⟨_, (Option.some.inj ha).symm⟩
    case isFalse => cases hnumber
  case h_2 => cases hnumber

/-- A product of two readable operands, the first of them a literal. -/
theorem scaledTerm_spec {x y : Expr} {a b : Term Text} (ha : readIndex isType threadId x = some a)
    (hb : readIndex isType threadId y = some b) :
    (scaledTerm isType threadId x y).map ScaledTerm.number = literalTimes isType x y
      ∧ ∀ p, scaledTerm isType threadId x y = some p →
          p.poly = (Term.mul a b).poly := by
  cases hlit : literalTimes isType x y with
  | none =>
      rw [scaledTerm, hlit]
      exact ⟨rfl, fun p hp => absurd hp nofun⟩
  | some number =>
      obtain ⟨text, htext, _⟩ := Option.bind_eq_some_iff.mp (Option.filter_eq_some_iff.mp hlit).1
      obtain ⟨v, rfl⟩ := readIndex_number htext ha
      rw [scaledTerm, hlit, ha, hb]
      refine ⟨rfl, fun p hp => ?_⟩
      cases hp
      show Polynomial.C (MvPolynomial.C (1 * v)) * b.poly + Polynomial.C (MvPolynomial.C 0)
        = Polynomial.C (MvPolynomial.C v) * b.poly
      rw [one_mul, map_zero, map_zero, add_zero]

/-- The first of two answers, a `0` counting as none. -/
theorem getD_or_filter {α : Type} (f : α → Nat) (p q : Option α) :
    ((p.map f).or (q.map f)).getD 0 = ((p.or q).filter fun x => f x ≠ 0).elim 0 f := by
  cases p with
  | some x => by_cases hx : f x = 0 <;> simp [Option.filter, hx]
  | none =>
      cases q with
      | none => rfl
      | some x => by_cases hx : f x = 0 <;> simp [Option.filter, hx]

/-- The left answer, unless it is none. -/
theorem elim_or_map {α : Type} (f : α → Nat) {g k : α → α} (hg : ∀ x, f (g x) = f x)
    (hk : ∀ x, f (k x) = f x) {p q : Option α} (hp : ∀ x, p = some x → f x ≠ 0) :
    (if p.elim 0 f ≠ 0 then p.elim 0 f else q.elim 0 f)
      = ((p.map g).or (q.map k)).elim 0 f := by
  cases p with
  | some x =>
      have hx : f x ≠ 0 := hp x rfl
      simp [hx, hg]
  | none => cases q <;> simp [hk]

/-- A product of the left operand or one of the right. -/
theorem or_map_spec {α : Type} {g k : α → α} {P : α → Prop} {p q : Option α}
    (hp : ∀ x, p = some x → P (g x)) (hq : ∀ x, q = some x → P (k x)) :
    ∀ r, (p.map g).or (q.map k) = some r → P r := by
  intro r hr
  rcases Option.or_eq_some_iff.mp hr with hr | ⟨-, hr⟩
  · obtain ⟨x, hx, rfl⟩ := Option.map_eq_some_iff.mp hr
    exact hp x hx
  · obtain ⟨x, hx, rfl⟩ := Option.map_eq_some_iff.mp hr
    exact hq x hx

theorem poly_add_right (p : ScaledTerm) (b : Term Text) :
    ({ p with rest := .add p.rest b } : ScaledTerm).poly = p.poly + b.poly :=
  (add_assoc _ _ _).symm

theorem poly_add_left (a : Term Text) (p : ScaledTerm) :
    ({ p with rest := .add a p.rest } : ScaledTerm).poly = a.poly + p.poly :=
  add_left_comm _ _ _

theorem poly_sub_right (p : ScaledTerm) (b : Term Text) :
    ({ p with rest := .sub p.rest b } : ScaledTerm).poly = p.poly - b.poly :=
  (add_sub_assoc _ _ _).symm

/-- The product of a right operand changes its sign. -/
theorem poly_sub_left (a : Term Text) (p : ScaledTerm) :
    ({ p with sign := -p.sign, rest := .sub a p.rest } : ScaledTerm).poly = a.poly - p.poly := by
  rw [ScaledTerm.poly, ScaledTerm.poly]
  show Polynomial.C (MvPolynomial.C (-p.sign * p.value)) * p.factor.poly + (a.poly - p.rest.poly) = _
  rw [neg_mul, map_neg, map_neg]
  ring

/-- **What `extract_stride` returns** is the number of the first product, and
product and rest make up the index. -/
theorem extractStride_spec {e : Expr} {index : Term Text}
    (h : readIndex isType threadId e = some index) :
    extractStride isType e = (firstScaled isType threadId e).elim 0 ScaledTerm.number
      ∧ ∀ p, firstScaled isType threadId e = some p → p.number ≠ 0 ∧ p.poly = index.poly := by
  induction e generalizing index with
  | atom t => exact ⟨rfl, fun p hp => absurd hp nofun⟩
  | suffix e s => exact ⟨rfl, fun p hp => absurd hp nofun⟩
  | paren l e r ih =>
      rw [readIndex] at h
      exact ih h
  | binary x op y ihx ihy =>
      rw [readIndex] at h
      split at h
      case h_2 => cases h
      case h_1 a b ha hb =>
        obtain ⟨hx, hpx⟩ := ihx ha
        obtain ⟨hy, hpy⟩ := ihy hb
        have hchoice := fun g k hg hk => elim_or_map ScaledTerm.number (g := g) (k := k) hg hk
          (q := firstScaled isType threadId y) fun p hp => (hpx p hp).1
        split at h
        case isTrue hadd =>
          -- a sum: the product of the left operand, else that of the right one
          cases h
          have hmul : op.body ≠ ['*'] := by rw [hadd]; decide
          rw [extractStride, firstScaled, if_neg hmul, if_neg hmul, if_pos (Or.inl hadd), if_pos hadd,
            ha, hb, hx, hy]
          refine ⟨hchoice _ _ (fun _ => rfl) (fun _ => rfl), or_map_spec ?_ ?_⟩
          · intro q hq
            rw [poly_add_right, (hpx q hq).2, Term.poly]
            exact ⟨(hpx q hq).1, rfl⟩
          · intro q hq
            rw [poly_add_left, (hpy q hq).2, Term.poly]
            exact ⟨(hpy q hq).1, rfl⟩
        case isFalse hadd =>
          split at h
          case isTrue hsub =>
            -- a difference, the same with a sign
            cases h
            have hmul : op.body ≠ ['*'] := by rw [hsub]; decide
            rw [extractStride, firstScaled, if_neg hmul, if_neg hmul, if_pos (Or.inr hsub),
              if_neg hadd, ha, hb, hx, hy]
            refine ⟨hchoice _ _ (fun _ => rfl) (fun _ => rfl), or_map_spec ?_ ?_⟩
            · intro q hq
              rw [poly_sub_right, (hpx q hq).2, Term.poly]
              exact ⟨(hpx q hq).1, rfl⟩
            · intro q hq
              rw [poly_sub_left, (hpy q hq).2, Term.poly]
              exact ⟨(hpy q hq).1, rfl⟩
          case isFalse hsub =>
            split at h
            case isTrue hmul =>
              cases h
              obtain ⟨hxy, hpxy⟩ := scaledTerm_spec ha hb
              obtain ⟨hyx, hpyx⟩ := scaledTerm_spec hb ha
              rw [extractStride, firstScaled, if_pos hmul, if_pos hmul, ← hxy, ← hyx]
              refine ⟨getD_or_filter _ _ _, fun p hp => ?_⟩
              obtain ⟨hp, hnumber⟩ := Option.filter_eq_some_iff.mp hp
              refine ⟨of_decide_eq_true hnumber, ?_⟩
              rcases Option.or_eq_some_iff.mp hp with hp | ⟨-, hp⟩
              · exact hpxy p hp
              · rw [hpyx p hp]
                exact mul_comm _ _
            case isFalse => cases h
  | _ => cases h

/-! ## §5. Soundness. -/

/-- **The extracted stride is right IF AND ONLY IF the rest of the sum, and what
the literal multiplies besides the thread id, do not distort it.** -/
theorem extractStride_sound_iff {e : Expr} {index : Term Text}
    (h : readIndex isType threadId e = some index) :
    StrideSound isType e index ↔
      ∀ p, firstScaled isType threadId e = some p → p.Undistorted := by
  obtain ⟨hstride, hparts⟩ := extractStride_spec h
  constructor
  · intro hsound p hp
    rw [hp] at hstride
    have haffine := hsound p.number hstride (hparts p hp).1
    rw [affine_int_iff, ← (hparts p hp).2] at haffine
    exact haffine
  · intro hall s hs hne
    cases hp : firstScaled isType threadId e with
    | none =>
        rw [hp] at hstride
        exact absurd (hs.symm.trans hstride) hne
    | some p =>
        rw [hp] at hstride
        have hslope := hall p hp
        rw [ScaledTerm.Undistorted, (hparts p hp).2] at hslope
        rw [← hs, hstride]
        exact affine_int_iff.mpr hslope

/-- With wrap-around, or in any other commutative ring, the condition suffices. -/
theorem affine_of_undistorted {R : Type} [CommRing R] {e : Expr} {index : Term Text}
    (h : readIndex isType threadId e = some index) {p : ScaledTerm}
    (hp : firstScaled isType threadId e = some p) (hslope : p.Undistorted) :
    Affine R index (extractStride isType e) := by
  obtain ⟨hstride, hparts⟩ := extractStride_spec h
  rw [hp] at hstride
  rw [ScaledTerm.Undistorted, (hparts p hp).2] at hslope
  rw [hstride]
  exact affine_of_coeff hslope

/-- A product that is added, of a plain literal and the thread id up to an offset,
in a sum without the thread id. -/
theorem undistorted_of_offset {p : ScaledTerm} (hsign : p.sign = 1) (hvalue : p.value = p.number)
    (hfactor : HasSlope p.factor.poly 1) (hrest : HasSlope p.rest.poly 0) : p.Undistorted := by
  have hcoeff : ∀ k, p.poly.coeff k
      = MvPolynomial.C (p.number : Int) * p.factor.poly.coeff k + p.rest.poly.coeff k := by
    intro k
    rw [ScaledTerm.poly, hsign, hvalue, one_mul, Polynomial.coeff_add, Polynomial.coeff_C_mul]
  refine ⟨?_, fun k hk => ?_⟩
  · rw [hcoeff, hfactor.1, hrest.1, map_zero, add_zero, map_one, mul_one]
  · rw [hcoeff, hfactor.2 k hk, hrest.2 k hk, mul_zero, add_zero]

/-- `tid * 4 + k`. -/
def scaledIndex : Expr :=
  .binary (.binary (.atom ⟨[], "tid".toList⟩) ⟨[], ['*']⟩ (.atom ⟨[], ['4']⟩)) ⟨[], ['+']⟩
    (.atom ⟨[], ['k']⟩)

/-- **`tid * 4 + k` has the stride 4.** -/
theorem extractStride_sound_iff_scaledIndex :
    StrideSound (fun _ => false) scaledIndex
      (.add (.mul .hole (.const 4)) (.var ['k'])) := by
  have hread : readIndex (fun _ => false) "tid".toList scaledIndex
      = some (.add (.mul .hole (.const 4)) (.var ['k'])) := by decide +kernel
  refine (extractStride_sound_iff hread).mpr fun p hp => ?_
  have hfirst : firstScaled (fun _ => false) "tid".toList scaledIndex
      = some ⟨1, 4, 4, .hole, .add (.const 0) (.var ['k'])⟩ := by decide +kernel
  rw [hfirst] at hp
  cases hp
  refine undistorted_of_offset rfl rfl ⟨?_, fun k hk => ?_⟩ ⟨?_, fun k hk => ?_⟩
  · simp [Term.poly]
  · simp [Term.poly, Polynomial.coeff_X, show 1 ≠ k by omega]
  · simp only [Term.poly, Polynomial.coeff_add, Polynomial.coeff_C_succ, map_zero, add_zero,
      Polynomial.coeff_zero]
  · obtain ⟨j, rfl⟩ : ∃ j, k = j + 1 := ⟨k - 1, by omega⟩
    simp only [Term.poly, Polynomial.coeff_add, Polynomial.coeff_C_succ, add_zero]

/-- `tid * 4 + tid`. -/
def twiceIndex : Expr :=
  .binary (.binary (.atom ⟨[], "tid".toList⟩) ⟨[], ['*']⟩ (.atom ⟨[], ['4']⟩)) ⟨[], ['+']⟩
    (.atom ⟨[], "tid".toList⟩)

/-- **`tid * 4 + tid` is given the stride 4**; it grows by 5. -/
theorem twiceIndex_distorted :
    readIndex (fun _ => false) "tid".toList twiceIndex = some (.add (.mul .hole (.const 4)) .hole)
      ∧ extractStride (fun _ => false) twiceIndex = 4
      ∧ ¬ StrideSound (fun _ => false) twiceIndex (.add (.mul .hole (.const 4)) .hole) := by
  have hfour : extractStride (fun _ => false) twiceIndex = 4 := by decide +kernel
  refine ⟨by decide +kernel, hfour, fun hsound => ?_⟩
  obtain ⟨u, hu⟩ := hsound 4 hfour (by decide)
  have hzero := hu (fun _ => 0) 0
  have hone := hu (fun _ => 0) 1
  simp only [Term.eval, Nat.cast_ofNat] at hzero hone
  push_cast at hzero hone
  omega

end ShaderClippy.Rules.BankConflict
