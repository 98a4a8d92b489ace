/-
  ShaderClippy.Rules.ByteOffset

  **BYTE OFFSETS OF WIDENED LOADS**
  (`byteaddressbuffer_load_misaligned.cpp`,
  `long_vector_bytebuf_load_misaligned.cpp`).

  A widened load needs an offset that is a multiple of its alignment. The
  rules read a literal offset into a register and look at the remainder:

      byteaddressbuffer-load-misaligned     64 bits, decimal or hexadecimal
      long-vector-bytebuf-load-misaligned   32 bits, decimal

  Neither checks for overflow. The registers wrap around at a power of two,
  and every alignment divides it: the remainder is that of the number itself
  (`load_alignment_exact`).

  Digits are decimal unless `0x` stands in front; a leading zero makes no
  octal number here. The long-vector rule knows no hexadecimal digits
  (`checkLongVectorCall_hexadecimal`).
-/
import ShaderClippy.Rules.IntegralText
import Mathlib.Data.Nat.ModEq

namespace ShaderClippy.Rules

/-! ## §1. `parse_uint_literal`. -/

/-- `alignment_for_load`; 0 for the methods the rule is not about. -/
def alignmentForLoad (method : Text) : Nat :=
  if method = "Load2".toList then 8
  else if method = "Load3".toList then 16
  else if method = "Load4".toList then 16
  else 0

/-- What the loops of `parse_uint_literal` leave: `value` and `any_digit`. -/
structure Reading where
  value : Nat
  anyDigit : Bool
  deriving Repr, DecidableEq

def Reading.start : Reading := ⟨0, false⟩

/-- One digit more in a register of so many bits. -/
def registerStep (base bits : Nat) (r : Reading) (d : Nat) : Reading :=
  ⟨(r.value * base + d) % 2 ^ bits, true⟩

/-- One decimal digit of `parse_uint_literal`. -/
def decimalStep : Reading → Nat → Reading := registerStep 10 64

/-- The number of a hexadecimal digit. -/
def hexDigit (c : Char) : Option Nat :=
  if '0' ≤ c ∧ c ≤ '9' then some (c.toNat - '0'.toNat)
  else if 'a' ≤ c ∧ c ≤ 'f' then some (10 + (c.toNat - 'a'.toNat))
  else if 'A' ≤ c ∧ c ≤ 'F' then some (10 + (c.toNat - 'A'.toNat))
  else none

/-- The hexadecimal loop. -/
def hexLoop (r : Reading) : Text → Reading × Text
  | [] => (r, [])
  | c :: cs =>
      match hexDigit c with
      | some d => hexLoop ⟨(r.value <<< 4) % 2 ^ 64 ||| d, true⟩ cs
      | none => (r, c :: cs)

/-- `0x` or `0X` chooses the loop. -/
def readNumber (t : Text) : Reading × Text :=
  match t with
  | '0' :: x :: rest =>
      if x = 'x' ∨ x = 'X' then hexLoop .start rest else digitLoop decimalStep .start t
  | t => digitLoop decimalStep .start t

/-- What is behind a fraction without a non-zero digit. -/
def skipFraction : Text → Option Text
  | '.' :: t =>
      let rest := t.dropWhile fun c => c == '0'
      match rest with
      | c :: _ => if '1' ≤ c ∧ c ≤ '9' then none else some rest
      | [] => some rest
  | t => some t

def startsExponent : Text → Bool
  | c :: _ => c == 'e' || c == 'E'
  | [] => false

/-- The suffix letters of an integer. -/
def isOffsetSuffix (c : Char) : Bool := c == 'u' || c == 'U' || c == 'l' || c == 'L'

/-- `parse_uint_literal`. A text that ends early has no digit. -/
def parseUintLiteral (text : Text) : Option Nat :=
  let (r, t) := readNumber (skipOptionalPlus text)
  if r.anyDigit = false then none
  else
    match skipFraction t with
    | none => none
    | some t =>
        if startsExponent t then none
        else if t.all isOffsetSuffix then some r.value else none

/-! ## §2. The two rules. -/

/-- The kinds of a binding that matter here (`ResourceKind`). -/
inductive BufferKind where
  | byteAddressBuffer | rwByteAddressBuffer | other
  deriving Repr, DecidableEq

/-- A method call as `check_call` sees it: a receiver that is an identifier,
and the first argument, with whether it is a `number_literal`. -/
structure LoadCall where
  receiver : Text
  method : Text
  argument : Option (Bool × Text)
  deriving Repr, DecidableEq

/-- The message of `check_call`. -/
def misalignedMessage (call : LoadCall) (literal : Text) : Text :=
  "`".toList ++ call.receiver ++ ".".toList ++ call.method ++ "(".toList ++ literal
    ++ ")` is misaligned -- ".toList ++ call.method ++ " requires a multiple-of-".toList
    ++ Nat.toDigits 10 (alignmentForLoad call.method)
    ++ "-byte offset; under-aligned widened loads either fault or ".toList
    ++ "split into single-DWORD reads on RDNA / Turing / Ada / Xe-HPG".toList

/-- `check_call`; `binding` is `find_binding_used_by`. -/
def checkLoadCall (binding : Text → Option BufferKind) (call : LoadCall) : Option Text :=
  if alignmentForLoad call.method = 0 then none
  else if binding call.receiver ≠ some .byteAddressBuffer
      ∧ binding call.receiver ≠ some .rwByteAddressBuffer then none
  else
    match call.argument with
    | some (true, literal) =>
        match parseUintLiteral literal with
        | some value =>
            if value % alignmentForLoad call.method = 0 then none
            else some (misalignedMessage call literal)
        | none => none
    | _ => none

/-- `k_min_alignment`. -/
def kMinAlignment : Nat := 16

/-- `find`: the text from the first place on where `needle` stands. -/
def findText (needle : Text) : Text → Option Text
  | [] => none
  | c :: cs => if needle.isPrefixOf (c :: cs) then some (c :: cs) else findText needle cs

def skipBlanks (t : Text) : Text := t.dropWhile fun c => c == ' ' || c == '\t'

/-- One digit of `parse_literal_offset`. -/
def wordStep : Reading → Nat → Reading := registerStep 10 32

/-- The digits behind blanks. -/
def readWord (t : Text) : Option Nat :=
  let r := (digitLoop wordStep .start (skipBlanks t)).1
  if r.anyDigit then some r.value else none

/-- `vector<T, N>` at the front of the text, with `N >= 5`. -/
def isLongVector (t : Text) : Bool :=
  match findText [','] t, findText ['>'] t with
  | some comma, some close =>
      -- the comma comes first
      decide (close.length < comma.length)
        && match readWord (comma.drop 1) with
          | some n => decide (5 ≤ n)
          | none => false
  | _, _ => false

/-- The loop over the places of `vector<`. -/
def hasLongVector : Text → Bool
  | [] => false
  | c :: cs => ("vector<".toList.isPrefixOf (c :: cs) && isLongVector (c :: cs)) || hasLongVector cs

/-- `template_arg_long_vector`. -/
def templateArgLongVector (text : Text) : Bool :=
  match findText ".Load<".toList text with
  | some t => hasLongVector (t.drop 6)
  | none => false

/-- The arguments of the call, from behind `>(`. -/
def offsetText (callText : Text) : Option Text :=
  (findText ".Load<".toList callText).bind fun load =>
    (findText ">(".toList load).map (List.drop 2)

/-- `parse_literal_offset`. -/
def parseLiteralOffset (callText : Text) : Option Nat := (offsetText callText).bind readWord

/-- The message of the long-vector rule. -/
def longVectorMessage (off : Nat) : Text :=
  "ByteAddressBuffer.Load<vector<T, N>>(...) with offset ".toList ++ Nat.toDigits 10 off
    ++ " is not 16-byte aligned; long-vector ".toList
    ++ "loads either split transactions or fault on misalignment ".toList
    ++ "(SM 6.9 long-vector spec)".toList

/-- The body of `walk` for a `call_expression`. -/
def checkLongVectorCall (callText : Text) : Option Text :=
  if templateArgLongVector callText then
    match parseLiteralOffset callText with
    | some off => if off % kMinAlignment ≠ 0 then some (longVectorMessage off) else none
    | none => none
  else none

/-! ## §3. Offset literals. -/

def isHexDigit (c : Char) : Bool := (hexDigit c).isSome

/-- A literal offset: decimal, or hexadecimal behind its mark. -/
inductive OffsetLiteral where
  | decimal (l : DecimalText isOffsetSuffix)
  | hexadecimal (l : IntegralText isHexDigit isOffsetSuffix)
      (mark_ok : l.mark = ['0', 'x'] ∨ l.mark = ['0', 'X'])

namespace OffsetLiteral

/-- The literal as it is written. -/
def text : OffsetLiteral → Text
  | decimal l => l.1.text
  | hexadecimal l _ => l.text

/-- The number it denotes. -/
def value : OffsetLiteral → Nat
  | decimal l => DigitRegister.value 10 (l.1.digits.map digitValue)
  | hexadecimal l _ => DigitRegister.value 16 (l.digits.map fun c => (hexDigit c).getD 0)

end OffsetLiteral

/-! ## §4. The loops keep the number modulo the register. -/

/-- Behind a digit the register holds the number modulo its size. -/
theorem foldl_registerStep (base bits : Nat) {ds : List Nat} (hne : ds ≠ []) :
    ds.foldl (registerStep base bits) .start = ⟨DigitRegister.value base ds % 2 ^ bits, true⟩ := by
  induction ds using List.reverseRecOn with
  | nil => exact absurd rfl hne
  | append_singleton ds d ih =>
      rw [List.foldl_concat, DigitRegister.value_concat_mod]
      by_cases hds : ds = []
      · rw [hds, show DigitRegister.value base [] = 0 from rfl, Nat.zero_mod]
        rfl
      · rw [ih hds]
        rfl

theorem hexDigit_lt {c : Char} {d : Nat} (h : hexDigit c = some d) : d < 16 := by
  unfold hexDigit at h
  simp only [Char.le_def, UInt32.le_iff_toNat_le] at h
  split at h
  case isTrue hc =>
    have hhigh : c.toNat ≤ 57 := hc.2
    have hd : c.toNat - 48 = d := Option.some.inj h
    omega
  case isFalse =>
    split at h
    case isTrue hc =>
      have hhigh : c.toNat ≤ 102 := hc.2
      have hd : 10 + (c.toNat - 97) = d := Option.some.inj h
      omega
    case isFalse =>
      split at h
      case isTrue hc =>
        have hhigh : c.toNat ≤ 70 := hc.2
        have hd : 10 + (c.toNat - 65) = d := Option.some.inj h
        omega
      case isFalse => exact absurd h nofun

/-- The shift leaves room for the digit. -/
theorem shiftLeft_or_digit (value : Nat) {d : Nat} (hd : d < 16) :
    (value <<< 4) % 2 ^ 64 ||| d = (value * 16 + d) % 2 ^ 64 := by
  have hshift : (value <<< 4) % 2 ^ 64 = 2 ^ 4 * (value % 2 ^ 60) := by
    rw [Nat.shiftLeft_eq]
    omega
  rw [hshift, ← Nat.two_pow_add_eq_or_of_lt (show d < 2 ^ 4 by omega)]
  omega

/-- The hexadecimal loop folds the digits the text begins with. -/
theorem hexLoop_run {digits rest : Text} (hdigits : ∀ c ∈ digits, isHexDigit c = true)
    (hend : ∀ c, rest.head? = some c → isHexDigit c = false) :
    ∀ r, hexLoop r (digits ++ rest)
      = ((digits.map fun c => (hexDigit c).getD 0).foldl (registerStep 16 64) r, rest) := by
  induction digits with
  | nil =>
      intro r
      show hexLoop r rest = (r, rest)
      cases rest with
      | nil => rfl
      | cons c cs =>
          have hnone : hexDigit c = none :=
            Option.isNone_iff_eq_none.mp (Option.isSome_eq_false_iff.mp (hend c rfl))
          rw [hexLoop, hnone]
  | cons c cs ih =>
      intro r
      have ⟨d, hd⟩ := Option.isSome_iff_exists.mp (hdigits c (List.mem_cons_self ..))
      show hexLoop r (c :: (cs ++ rest)) = _
      rw [hexLoop, hd]
      show hexLoop ⟨(r.value <<< 4) % 2 ^ 64 ||| d, true⟩ (cs ++ rest) = _
      rw [ih fun x hx => hdigits x (List.mem_cons_of_mem _ hx), shiftLeft_or_digit _ (hexDigit_lt hd),
        List.map_cons, hd]
      rfl

/-! ## §5. What is read of a literal. -/

theorem offsetSuffix_cases {c : Char} (h : isOffsetSuffix c = true) :
    c = 'u' ∨ c = 'U' ∨ c = 'l' ∨ c = 'L' := by
  simp only [isOffsetSuffix, Bool.or_eq_true, beq_iff_eq] at h
  tauto

theorem offsetSuffix_decimal : SuffixClass Char.isDigit isOffsetSuffix := by
  have hletters : ∀ c, isOffsetSuffix c = true → c.isDigit = false := by
    intro c hc
    obtain rfl | rfl | rfl | rfl := offsetSuffix_cases hc <;> rfl
  exact ⟨hletters, hletters, rfl⟩

theorem offsetSuffix_hexadecimal : SuffixClass isHexDigit isOffsetSuffix where
  noDigit c hc := by obtain rfl | rfl | rfl | rfl := offsetSuffix_cases hc <;> decide
  noZero := offsetSuffix_decimal.noZero
  noPoint := rfl

theorem isDigit_nonzero {c : Char} (h : c.isDigit = true) (hzero : c ≠ '0') : '1' ≤ c ∧ c ≤ '9' := by
  have ⟨hlow, hhigh⟩ := isDigit_bounds h
  have hne : c.toNat ≠ 48 := fun heq => hzero (Char.toNat_inj.mp heq)
  simp only [Char.le_def, UInt32.le_iff_toNat_le]
  show 49 ≤ c.toNat ∧ c.toNat ≤ 57
  omega

theorem isDigit_of_nonzero {c : Char} (h : '1' ≤ c ∧ c ≤ '9') : c.isDigit = true ∧ c ≠ '0' := by
  simp only [Char.le_def, UInt32.le_iff_toNat_le] at h
  have hlow : 49 ≤ c.toNat := h.1
  have hhigh : c.toNat ≤ 57 := h.2
  refine ⟨?_, fun heq => ?_⟩
  · simp only [Char.isDigit, Bool.and_eq_true, decide_eq_true_eq, ge_iff_le,
      UInt32.le_iff_toNat_le]
    show 48 ≤ c.toNat ∧ c.toNat ≤ 57
    omega
  · rw [heq] at hlow
    exact absurd hlow (by decide)

/-- Zeros and what follows them. -/
theorem exists_zeros (t : Text) :
    ∃ zeros, t = List.replicate zeros '0' ++ t.dropWhile (fun c => c == '0') := by
  refine ⟨(t.takeWhile fun c => c == '0').length, ?_⟩
  have hrow : t.takeWhile (fun c => c == '0')
      = List.replicate (t.takeWhile fun c => c == '0').length '0' :=
    List.eq_replicate_of_mem fun c hc => beq_iff_eq.mp (List.mem_takeWhile_imp (p := fun c => c == '0') hc)
  rw [← hrow, List.takeWhile_append_dropWhile]

/-- To stop behind the zeros is to stop behind the digits, if no digit but
zero is there. -/
theorem skipFraction_eq (t : Text) : skipFraction t = skipZeroFraction t := by
  by_cases hdot : ∃ fraction, t = '.' :: fraction
  · obtain ⟨t, rfl⟩ := hdot
    have ⟨zeros, hzeros⟩ := exists_zeros t
    have hdigits : ∀ c ∈ List.replicate zeros '0', c.isDigit = true := by
      intro c hc
      rw [List.eq_of_mem_replicate hc]
      rfl
    have hall : (List.replicate zeros '0').all (fun c => c == '0') = true :=
      List.all_eq_true.mpr fun c hc => beq_iff_eq.mpr (List.eq_of_mem_replicate hc)
    have hfirst := List.head?_dropWhile_not (fun c => c == '0') t
    show (match t.dropWhile (fun c => c == '0') with
      | c :: _ => if '1' ≤ c ∧ c ≤ '9' then none else some (t.dropWhile fun c => c == '0')
      | [] => some (t.dropWhile fun c => c == '0'))
      = (if (t.takeWhile Char.isDigit).all (fun c => c == '0') then some (t.dropWhile Char.isDigit)
          else none)
    generalize t.dropWhile (fun c => c == '0') = rest at hzeros hfirst ⊢
    rw [hzeros, List.takeWhile_append_of_pos hdigits, List.dropWhile_append_of_pos hdigits,
      List.all_append, hall, Bool.true_and]
    cases rest with
    | nil => rfl
    | cons c cs =>
        have hc : c ≠ '0' := by simpa using hfirst
        by_cases hdigit : c.isDigit = true
        · rw [List.takeWhile_cons_of_pos hdigit, List.all_cons, beq_false_of_ne hc]
          show (if '1' ≤ c ∧ c ≤ '9' then none else _) = none
          rw [if_pos (isDigit_nonzero hdigit hc)]
        · have hsmall : ¬ ('1' ≤ c ∧ c ≤ '9') := fun h => hdigit (isDigit_of_nonzero h).1
          rw [List.takeWhile_cons_of_neg hdigit, List.dropWhile_cons_of_neg hdigit]
          show (if '1' ≤ c ∧ c ≤ '9' then none else _) = some (c :: cs)
          rw [if_neg hsmall]
  · have hother : ∀ fraction, t = '.' :: fraction → False := fun fraction h => hdot ⟨fraction, h⟩
    rw [skipFraction.eq_2 t hother, skipZeroFraction.eq_2 t hother]

/-- A suffix begins with no exponent. -/
theorem startsExponent_suffix {t : Text} (h : t.all isOffsetSuffix = true) :
    startsExponent t = false := by
  cases t with
  | nil => rfl
  | cons c cs =>
      have hc : isOffsetSuffix c = true := List.all_eq_true.mp h c (List.mem_cons_self ..)
      obtain rfl | rfl | rfl | rfl := offsetSuffix_cases hc <;> rfl

/-- **What is behind the digits decides** whether the number is taken. -/
theorem parseUintLiteral_iff {text t : Text} {r : Reading} {v : Nat}
    (hread : readNumber (skipOptionalPlus text) = (r, t)) :
    parseUintLiteral text = some v
      ↔ r = ⟨v, true⟩ ∧ ∃ fraction suffix, t = zeroFraction fraction ++ suffix
          ∧ ∀ c ∈ suffix, isOffsetSuffix c = true := by
  rw [← tailText_iff offsetSuffix_decimal]
  unfold parseUintLiteral
  rw [hread]
  show (if r.anyDigit = false then none else _) = _ ↔ _
  rw [skipFraction_eq]
  constructor
  · intro h
    split at h
    case isTrue => exact absurd h nofun
    case isFalse hdigit =>
      split at h
      case h_1 => exact absurd h nofun
      case h_2 rest hrest =>
        split at h
        case isTrue => exact absurd h nofun
        case isFalse =>
          split at h
          case isFalse => exact absurd h nofun
          case isTrue hsuffix =>
            refine ⟨?_, rest, hrest, hsuffix⟩
            rw [← Option.some.inj h, ← Bool.eq_true_of_not_eq_false hdigit]
  · intro ⟨hr, rest, hrest, hsuffix⟩
    have hexponent : ¬ startsExponent rest = true := by
      rw [startsExponent_suffix hsuffix]
      nofun
    rw [hr, if_neg nofun, hrest]
    show (if startsExponent rest = true then none else _) = _
    rw [if_neg hexponent, if_pos hsuffix]

/-! ## §6. Every offset literal is read, and nothing else. -/

/-- The tail of a literal begins with a point or a suffix letter. -/
theorem tail_not_mark {isDigit : Char → Bool} (l : IntegralText isDigit isOffsetSuffix) {c : Char}
    (h : l.tail.head? = some c) : ¬ (c = 'x' ∨ c = 'X') := by
  unfold IntegralText.tail at h
  -- a point, or else a suffix letter
  cases hf : l.fraction with
  | some zeros =>
      rw [hf] at h
      have hdot : '.' = c := Option.some.inj h
      rw [← hdot]
      decide
  | none =>
      rw [hf] at h
      have hc := l.suffix_ok c (List.mem_of_mem_head? h)
      obtain rfl | rfl | rfl | rfl := offsetSuffix_cases hc <;> decide

/-- Decimal digits stand behind no mark. -/
theorem readNumber_decimal {digits rest : Text} (hrun : DigitRun digits rest)
    (hmark : ∀ c, rest.head? = some c → ¬ (c = 'x' ∨ c = 'X')) (hne : digits ≠ []) :
    readNumber (digits ++ rest)
      = (⟨DigitRegister.value 10 (digits.map digitValue) % 2 ^ 64, true⟩, rest) := by
  have hloop : readNumber (digits ++ rest) = digitLoop decimalStep .start (digits ++ rest) := by
    unfold readNumber
    split
    case h_2 => rfl
    case h_1 x rest' heq =>
      -- the second character is a digit, or the first one behind them
      have hx : ¬ (x = 'x' ∨ x = 'X') := by
        match digits, hne with
        | [c], _ =>
            have hrest : rest = x :: rest' := (List.cons.inj heq).2
            exact hmark x (by rw [hrest]; rfl)
        | c :: d :: ds, _ =>
            have hd : d = x := (List.cons.inj (List.cons.inj heq).2).1
            have hdigit := hrun.digits d (List.mem_cons_of_mem _ (List.mem_cons_self ..))
            rw [hd] at hdigit
            intro hor
            obtain rfl | rfl := hor <;> exact absurd hdigit (by decide)
      rw [if_neg hx]
  rw [hloop, digitLoop_run _ _ hrun, show decimalStep = registerStep 10 64 from rfl,
    foldl_registerStep 10 64 fun hnil => hne (List.map_eq_nil_iff.mp hnil)]

theorem readNumber_hexadecimal {x : Char} (hx : x = 'x' ∨ x = 'X') {digits rest : Text}
    (hdigits : ∀ c ∈ digits, isHexDigit c = true)
    (hend : ∀ c, rest.head? = some c → isHexDigit c = false) (hne : digits ≠ []) :
    readNumber ('0' :: x :: (digits ++ rest))
      = (⟨DigitRegister.value 16 (digits.map fun c => (hexDigit c).getD 0) % 2 ^ 64, true⟩, rest) := by
  show (if x = 'x' ∨ x = 'X' then hexLoop .start (digits ++ rest) else _) = _
  -- behind the mark only the loop for hexadecimal digits runs
  rw [if_pos hx, hexLoop_run hdigits hend,
    foldl_registerStep 16 64 fun hnil => hne (List.map_eq_nil_iff.mp hnil)]

namespace OffsetLiteral

/-- What follows the digits. -/
def tail : OffsetLiteral → Text
  | decimal l => l.1.tail
  | hexadecimal l _ => l.tail

theorem readNumber_text (l : OffsetLiteral) :
    readNumber (skipOptionalPlus l.text) = (⟨l.value % 2 ^ 64, true⟩, l.tail) := by
  cases l with
  | decimal l =>
      show readNumber (skipOptionalPlus l.1.text) = _
      rw [l.skipOptionalPlus_text]
      exact readNumber_decimal (l.run offsetSuffix_decimal) (fun _ hc => tail_not_mark l.1 hc)
        l.1.digits_ne
  | hexadecimal l hmark =>
      -- no suffix letter is a hexadecimal digit
      have hend : ∀ c, l.tail.head? = some c → isHexDigit c = false := fun c hc =>
        l.tail_head offsetSuffix_hexadecimal (by decide) hc
      obtain ⟨x, hx, htext⟩ : ∃ x, (x = 'x' ∨ x = 'X')
          ∧ l.text = plusText l.plus ++ ('0' :: x :: (l.digits ++ l.tail)) := by
        unfold IntegralText.text
        obtain hm | hm := hmark <;> rw [hm]
        · exact ⟨'x', Or.inl rfl, rfl⟩
        · exact ⟨'X', Or.inr rfl, rfl⟩
      show readNumber (skipOptionalPlus l.text) = _
      rw [htext, Rules.skipOptionalPlus_text (by simp)]
      exact readNumber_hexadecimal hx l.digits_ok hend l.digits_ne

theorem tail_eq (l : OffsetLiteral) :
    ∃ fraction suffix, l.tail = zeroFraction fraction ++ suffix
      ∧ ∀ c ∈ suffix, isOffsetSuffix c = true := by
  cases l with
  | decimal l => exact ⟨l.1.fraction, l.1.suffix, rfl, l.1.suffix_ok⟩
  | hexadecimal l _ => exact ⟨l.fraction, l.suffix, rfl, l.suffix_ok⟩

/-- **An offset literal is read as its number modulo the register.** -/
theorem parseUintLiteral_text (l : OffsetLiteral) :
    parseUintLiteral l.text = some (l.value % 2 ^ 64) :=
  (parseUintLiteral_iff l.readNumber_text).mpr ⟨rfl, l.tail_eq⟩

end OffsetLiteral

/-- A text that gives a digit is digits, behind a mark or none. -/
theorem readNumber_digits {t rest : Text} {v : Nat} (h : readNumber t = (⟨v, true⟩, rest)) :
    (∃ digits, digits ≠ [] ∧ (∀ c ∈ digits, c.isDigit = true) ∧ t = digits ++ rest)
      ∨ ∃ mark digits, (mark = ['0', 'x'] ∨ mark = ['0', 'X']) ∧ digits ≠ []
          ∧ (∀ c ∈ digits, isHexDigit c = true) ∧ t = mark ++ (digits ++ rest) := by
  -- a digit was read, so the run is not empty
  have hdecimal : ∀ {t}, digitLoop decimalStep .start t = (⟨v, true⟩, rest) →
      ∃ digits, digits ≠ [] ∧ (∀ c ∈ digits, c.isDigit = true) ∧ t = digits ++ rest := by
    intro t hloop
    rw [digitLoop_eq] at hloop
    have ⟨hfold, hrest⟩ := Prod.mk.inj hloop
    refine ⟨t.takeWhile Char.isDigit, fun hnil => ?_, fun c hc => List.mem_takeWhile_imp hc, ?_⟩
    · rw [hnil] at hfold
      exact absurd hfold nofun
    · rw [← hrest, List.takeWhile_append_dropWhile]
  unfold readNumber at h
  split at h
  case h_2 => exact Or.inl (hdecimal h)
  case h_1 x t' =>
    split at h
    case isFalse => exact Or.inl (hdecimal h)
    case isTrue hx =>
      -- the loop stops at the first character that is no digit
      have hrest : ∀ c, (t'.dropWhile isHexDigit).head? = some c → isHexDigit c = false := by
        intro c hc
        have hno := List.head?_dropWhile_not isHexDigit t'
        rw [hc] at hno
        simpa using hno
      rw [← List.takeWhile_append_dropWhile (p := isHexDigit) (l := t'),
        hexLoop_run (fun c hc => List.mem_takeWhile_imp hc) hrest] at h
      have ⟨hfold, hend⟩ := Prod.mk.inj h
      refine Or.inr ⟨['0', x], t'.takeWhile isHexDigit, ?_, fun hnil => ?_,
        fun c hc => List.mem_takeWhile_imp hc, ?_⟩
      · obtain rfl | rfl := hx
        · exact Or.inl rfl
        · exact Or.inr rfl
      · rw [hnil] at hfold
        exact absurd hfold nofun
      · rw [← hend, List.takeWhile_append_dropWhile]
        rfl

/-- **Only offset literals are read.** -/
theorem parseUintLiteral_literal {text : Text} {v : Nat} (h : parseUintLiteral text = some v) :
    ∃ l : OffsetLiteral, l.text = text := by
  have ⟨plus, hplus⟩ := skipOptionalPlus_split text
  obtain ⟨⟨r, t⟩, hread⟩ : ∃ p, readNumber (skipOptionalPlus text) = p := ⟨_, rfl⟩
  have ⟨hr, fraction, suffix, ht, hsuffix⟩ := (parseUintLiteral_iff hread).mp h
  rw [hr] at hread
  -- plus, digits, fraction and suffix put the literal together again
  obtain ⟨digits, hne, hdigits, htext⟩ | ⟨mark, digits, hmark, hne, hdigits, htext⟩ :=
    readNumber_digits hread
  · refine ⟨.decimal ⟨⟨plus, [], digits, fraction, suffix, hne, hdigits, hsuffix⟩, rfl⟩, ?_⟩
    rw [hplus, htext, ht]
    rfl
  · refine ⟨.hexadecimal ⟨plus, mark, digits, fraction, suffix, hne, hdigits, hsuffix⟩ hmark, ?_⟩
    rw [hplus, htext, ht]
    rfl

/-! ## §7. The verdicts. -/

/-- A register keeps the remainder by what divides its size. -/
theorem wrap_modEq {a m : Nat} (h : a ∣ m) (n : Nat) : n % m ≡ n [MOD a] :=
  Nat.mod_mod_of_dvd n h

theorem alignment_dvd (method : Text) : alignmentForLoad method ∣ 2 ^ 64 ∨ alignmentForLoad method = 0 := by
  unfold alignmentForLoad
  split
  · exact Or.inl (by decide)
  · split
    · exact Or.inl (by decide)
    · split
      · exact Or.inl (by decide)
      · exact Or.inr rfl

/-- The calls whose literal offset `check_call` looks at. -/
def Concerns (binding : Text → Option BufferKind) (call : LoadCall) : Prop :=
  alignmentForLoad call.method ≠ 0
    ∧ (binding call.receiver = some .byteAddressBuffer
      ∨ binding call.receiver = some .rwByteAddressBuffer)

/-- Such a call is reported by the remainder of what is read. -/
theorem checkLoadCall_isSome_iff (binding : Text → Option BufferKind) (call : LoadCall) :
    (checkLoadCall binding call).isSome = true
      ↔ Concerns binding call ∧ ∃ literal v, call.argument = some (true, literal)
          ∧ parseUintLiteral literal = some v ∧ v % alignmentForLoad call.method ≠ 0 := by
  unfold checkLoadCall Concerns
  constructor
  · intro h
    split at h
    case isTrue => exact absurd h nofun
    case isFalse halign =>
      split at h
      case isTrue => exact absurd h nofun
      case isFalse hbinding =>
        split at h
        case h_2 => exact absurd h nofun
        case h_1 literal hargument =>
          split at h
          case h_2 => exact absurd h nofun
          case h_1 v hv =>
            split at h
            case isTrue => exact absurd h nofun
            case isFalse hrem =>
              exact ⟨⟨halign, by tauto⟩, literal, v, hargument, hv, hrem⟩
  · intro ⟨⟨halign, hbinding⟩, literal, v, hargument, hv, hrem⟩
    rw [if_neg halign, if_neg (by tauto), hargument]
    show (match parseUintLiteral literal with
      | some value => if value % alignmentForLoad call.method = 0 then none else _
      | none => none).isSome = true
    rw [hv]
    show (if v % alignmentForLoad call.method = 0 then none else _).isSome = true
    rw [if_neg hrem]
    rfl

/-- The long-vector rule reads decimal digits into its register. -/
theorem readWord_run {blanks digits rest : Text} (hblanks : ∀ c ∈ blanks, c = ' ' ∨ c = '\t')
    (hrun : DigitRun digits rest) (hne : digits ≠ []) :
    readWord (blanks ++ (digits ++ rest)) = some (decimal digits % 2 ^ 32) := by
  -- the blanks end at the first digit
  have hskip : skipBlanks (blanks ++ (digits ++ rest)) = digits ++ rest := by
    unfold skipBlanks
    rw [List.dropWhile_append_of_pos fun c hc => by simpa using hblanks c hc]
    cases digits with
    | nil => exact absurd rfl hne
    | cons c cs =>
        refine List.dropWhile_cons_of_neg ?_
        have hc := hrun.digits c (List.mem_cons_self ..)
        intro hblank
        simp only [Bool.or_eq_true, beq_iff_eq] at hblank
        obtain rfl | rfl := hblank <;> exact absurd hc (by decide)
  unfold readWord
  rw [hskip, digitLoop_run _ _ hrun, show wordStep = registerStep 10 32 from rfl,
    foldl_registerStep 10 32 fun hnil => hne (List.map_eq_nil_iff.mp hnil), ← decimal_eq_value]
  rfl

/-- Of a hexadecimal offset the long-vector rule reads the zero in front, so
that it never reports one. -/
theorem checkLongVectorCall_hexadecimal {callText blanks rest : Text} {x : Char}
    (hx : x = 'x' ∨ x = 'X') (hblanks : ∀ c ∈ blanks, c = ' ' ∨ c = '\t')
    (htext : offsetText callText = some (blanks ++ ('0' :: x :: rest))) :
    checkLongVectorCall callText = none := by
  have hrun : DigitRun ['0'] (x :: rest) := by
    refine ⟨fun c hc => ?_, fun c hc => ?_⟩
    · rw [List.mem_singleton.mp hc]
      rfl
    · have hfirst : x = c := Option.some.inj hc
      rw [← hfirst]
      obtain rfl | rfl := hx <;> rfl
  -- the run stops at the `x`, and 0 is a multiple of everything
  have hread : parseLiteralOffset callText = some 0 := by
    unfold parseLiteralOffset
    rw [htext, Option.bind_some]
    exact readWord_run hblanks hrun nofun
  unfold checkLongVectorCall
  rw [hread]
  exact ite_self none

/-- **The verdict on a literal offset is exact.**  `parse_uint_literal` takes
exactly the offset literals, and what it returns is congruent to the number
modulo 4, 8 and 16; so a call is reported exactly if the number is no multiple
of the alignment. The same holds of the decimal offsets of the long-vector
rule. -/
theorem load_alignment_exact :
    (∀ text, (∃ v, parseUintLiteral text = some v) ↔ ∃ l : OffsetLiteral, l.text = text)
      ∧ (∀ (l : OffsetLiteral) (v : Nat), parseUintLiteral l.text = some v →
          ∀ a ∈ [4, 8, 16], v ≡ l.value [MOD a])
      ∧ (∀ binding call (l : OffsetLiteral), call.argument = some (true, l.text) →
          ((checkLoadCall binding call).isSome = true
            ↔ Concerns binding call ∧ ¬ alignmentForLoad call.method ∣ l.value))
      ∧ ∀ callText blanks digits rest, offsetText callText = some (blanks ++ (digits ++ rest)) →
          (∀ c ∈ blanks, c = ' ' ∨ c = '\t') → DigitRun digits rest → digits ≠ [] →
          (∃ off, parseLiteralOffset callText = some off ∧ off ≡ decimal digits [MOD 16])
            ∧ ((checkLongVectorCall callText).isSome = true
              ↔ templateArgLongVector callText = true ∧ ¬ kMinAlignment ∣ decimal digits) := by
  -- the alignments divide the size of the register
  have hliteral : ∀ (l : OffsetLiteral) {a : Nat}, a ∣ 2 ^ 64 → l.value % 2 ^ 64 ≡ l.value [MOD a] :=
    fun l _ ha => wrap_modEq ha l.value
  refine ⟨fun text => ⟨fun ⟨v, hv⟩ => parseUintLiteral_literal hv, ?_⟩, ?_, ?_, ?_⟩
  · intro ⟨l, hl⟩
    exact ⟨_, by rw [← hl]; exact l.parseUintLiteral_text⟩
  · intro l v hv a ha
    rw [l.parseUintLiteral_text] at hv
    rw [← Option.some.inj hv]
    have hdvd : ∀ a ∈ [4, 8, 16], a ∣ 2 ^ 64 := by decide
    exact hliteral l (hdvd a ha)
  · intro binding call l hargument
    rw [checkLoadCall_isSome_iff]
    refine and_congr_right fun hconcerns => ?_
    have hdvd := (alignment_dvd call.method).resolve_right hconcerns.1
    have hmod : l.value % 2 ^ 64 % alignmentForLoad call.method
        = l.value % alignmentForLoad call.method := hliteral l hdvd
    rw [Nat.dvd_iff_mod_eq_zero, ← hmod]
    constructor
    · intro ⟨literal, v, harg, hv, hrem⟩
      -- the literal that is read is this one
      rw [hargument] at harg
      have hsame : l.text = literal := (Prod.mk.inj (Option.some.inj harg)).2
      rw [← hsame, l.parseUintLiteral_text] at hv
      rw [Option.some.inj hv]
      exact hrem
    · intro hrem
      exact ⟨l.text, _, hargument, l.parseUintLiteral_text, hrem⟩
  · intro callText blanks digits rest htext hblanks hrun hne
    have hread : parseLiteralOffset callText = some (decimal digits % 2 ^ 32) := by
      unfold parseLiteralOffset
      rw [htext, Option.bind_some, readWord_run hblanks hrun hne]
    -- 16 divides the size of the smaller register too
    have hmod : decimal digits % 2 ^ 32 ≡ decimal digits [MOD 16] := wrap_modEq (by decide) _
    refine ⟨⟨_, hread, hmod⟩, ?_⟩
    unfold checkLongVectorCall
    rw [hread, Nat.dvd_iff_mod_eq_zero]
    show (if templateArgLongVector callText = true
      then (if decimal digits % 2 ^ 32 % 16 ≠ 0 then _ else none) else none).isSome = true
        ↔ _ ∧ ¬ decimal digits % 16 = 0
    rw [show decimal digits % 2 ^ 32 % 16 = decimal digits % 16 from hmod]
    split
    case isFalse hlong => exact ⟨nofun, fun h => absurd h.1 hlong⟩
    case isTrue hlong =>
      split
      case isTrue hrem => exact ⟨fun _ => ⟨hlong, hrem⟩, fun _ => rfl⟩
      case isFalse hrem => exact ⟨nofun, fun h => absurd h.2 hrem⟩

/-- One more than the register holds. -/
example : parseUintLiteral "18446744073709551620.0u".toList = some 4 := by decide

end ShaderClippy.Rules
