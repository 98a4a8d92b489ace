/-
  ShaderClippy.Lib.JsonText

  **JSON TEXTS, READ AND WRITTEN.**

  A text is a list of characters, one a byte. `parse` is a reader of JSON:
  one value with blanks around it, strings decoded with all their escapes.
  A number is kept as its literal, a byte above 0x7F in a string as itself.

  `write` is the compact writer, that escapes what must be escaped and nothing
  else. What it writes is read back (`parse_write`); an array whose bracket is
  missing is no value (`parse_unclosed`).
-/
import Mathlib.Data.List.TakeWhile
import Mathlib.Tactic.Tauto

namespace JsonText

/-! ## §1. Values. -/

inductive Value where
  | null
  | boolean (b : Bool)
  | number (literal : List Char)
  | string (bytes : List Char)
  | array (items : List Value)
  | object (members : List (List Char × Value))

/-! ## §2. Strings. -/

/-- What a string consists of: bytes, and 16-bit code units. -/
inductive Part where
  | byte (c : Char)
  | code (unit : Nat)

def hexValue (c : Char) : Option Nat :=
  if '0' ≤ c ∧ c ≤ '9' then some (c.toNat - 48)
  else if 'a' ≤ c ∧ c ≤ 'f' then some (c.toNat - 87)
  else if 'A' ≤ c ∧ c ≤ 'F' then some (c.toNat - 55)
  else none

/-- Four hexadecimal digits. -/
def codeUnit (a b c d : Char) : Option Nat := do
  let a ← hexValue a
  let b ← hexValue b
  let c ← hexValue c
  let d ← hexValue d
  return ((a * 16 + b) * 16 + c) * 16 + d

/-- The escapes of two characters. -/
def simpleEscape (c : Char) : Option Char :=
  if c = '"' then some '"'
  else if c = '\\' then some '\\'
  else if c = '/' then some '/'
  else if c = 'b' then some '\x08'
  else if c = 'f' then some '\x0c'
  else if c = 'n' then some '\n'
  else if c = 'r' then some '\r'
  else if c = 't' then some '\t'
  else none

/-- The parts up to the closing quote, and what is behind it. -/
def parts : List Char → Option (List Part × List Char)
  | [] => none
  | '"' :: rest => some ([], rest)
  | '\\' :: 'u' :: a :: b :: c :: d :: rest =>
      (codeUnit a b c d).bind fun unit =>
        (parts rest).map fun p => (.code unit :: p.1, p.2)
  | '\\' :: c :: rest =>
      (simpleEscape c).bind fun byte => (parts rest).map fun p => (.byte byte :: p.1, p.2)
  | c :: rest =>
      if c.toNat < 0x20 then none else (parts rest).map fun p => (.byte c :: p.1, p.2)

/-- The bytes of a code point. -/
def utf8 (n : Nat) : List Char :=
  if n < 0x80 then [Char.ofNat n]
  else if n < 0x800 then [Char.ofNat (0xC0 + n / 64), Char.ofNat (0x80 + n % 64)]
  else if n < 0x10000 then
    [Char.ofNat (0xE0 + n / 4096), Char.ofNat (0x80 + n / 64 % 64), Char.ofNat (0x80 + n % 64)]
  else
    [Char.ofNat (0xF0 + n / 262144), Char.ofNat (0x80 + n / 4096 % 64),
      Char.ofNat (0x80 + n / 64 % 64), Char.ofNat (0x80 + n % 64)]

/-- The bytes of a string; surrogates come in pairs. -/
def bytesOf : List Part → Option (List Char)
  | [] => some []
  | .byte c :: ps => (bytesOf ps).map (c :: ·)
  | .code high :: .code low :: ps =>
      if 0xD800 ≤ high ∧ high < 0xDC00 then
        if 0xDC00 ≤ low ∧ low < 0xE000 then
          (bytesOf ps).map (utf8 (0x10000 + (high - 0xD800) * 0x400 + (low - 0xDC00)) ++ ·)
        else none
      else if 0xDC00 ≤ high ∧ high < 0xE000 then none
      else (bytesOf (.code low :: ps)).map (utf8 high ++ ·)
  | .code unit :: ps =>
      if 0xD800 ≤ unit ∧ unit < 0xE000 then none else (bytesOf ps).map (utf8 unit ++ ·)

/-- A string, from behind its opening quote. -/
def string (t : List Char) : Option (List Char × List Char) :=
  (parts t).bind fun p => (bytesOf p.1).map fun bytes => (bytes, p.2)

/-! ## §3. Numbers. -/

/-- Digits, at least one. -/
def digits (t : List Char) : Option (List Char × List Char) :=
  if t.takeWhile Char.isDigit = [] then none
  else some (t.takeWhile Char.isDigit, t.dropWhile Char.isDigit)

/-- No zero in front of another digit. -/
def integer : List Char → Option (List Char × List Char)
  | '0' :: rest => some (['0'], rest)
  | t => digits t

def fraction : List Char → Option (List Char × List Char)
  | '.' :: rest => (digits rest).map fun p => ('.' :: p.1, p.2)
  | t => some ([], t)

def sign (chars : List Char) : List Char → List Char × List Char
  | c :: rest => if c ∈ chars then ([c], rest) else ([], c :: rest)
  | [] => ([], [])

def exponent : List Char → Option (List Char × List Char)
  | c :: rest =>
      if c = 'e' ∨ c = 'E' then
        (digits (sign ['+', '-'] rest).2).map fun p => (c :: ((sign ['+', '-'] rest).1 ++ p.1), p.2)
      else some ([], c :: rest)
  | [] => some ([], [])

/-- The literal of a number. -/
def number (t : List Char) : Option (List Char × List Char) :=
  (integer (sign ['-'] t).2).bind fun i =>
    (fraction i.2).bind fun f =>
      (exponent f.2).map fun e => ((sign ['-'] t).1 ++ (i.1 ++ (f.1 ++ e.1)), e.2)

/-! ## §4. Values and texts. -/

def isBlank (c : Char) : Bool := c == ' ' || c == '\t' || c == '\n' || c == '\r'

def skipBlanks (t : List Char) : List Char := t.dropWhile isBlank

/-- A keyword, for its value. -/
def keyword (word : List Char) (v : Value) (t : List Char) : Option (Value × List Char) :=
  if word.isPrefixOf t then some (v, t.drop word.length) else none

mutual
/-- A value and what is behind it. -/
def value : Nat → List Char → Option (Value × List Char)
  | 0, _ => none
  | fuel + 1, t =>
      match skipBlanks t with
      | [] => none
      | c :: cs =>
          if c = '"' then (string cs).map fun p => (.string p.1, p.2)
          else if c = '[' then
            match skipBlanks cs with
            | ']' :: rest => some (.array [], rest)
            | _ => (items fuel cs).map fun p => (.array p.1, p.2)
          else if c = '{' then
            match skipBlanks cs with
            | '}' :: rest => some (.object [], rest)
            | _ => (members fuel cs).map fun p => (.object p.1, p.2)
          else if c = 't' then keyword ['r', 'u', 'e'] (.boolean true) cs
          else if c = 'f' then keyword ['a', 'l', 's', 'e'] (.boolean false) cs
          else if c = 'n' then keyword ['u', 'l', 'l'] .null cs
          else (number (c :: cs)).map fun p => (.number p.1, p.2)

/-- The items of an array that has one, with the bracket that closes it. -/
def items : Nat → List Char → Option (List Value × List Char)
  | 0, _ => none
  | fuel + 1, t =>
      (value fuel t).bind fun v =>
        match skipBlanks v.2 with
        | ',' :: rest => (items fuel rest).map fun p => (v.1 :: p.1, p.2)
        | ']' :: rest => some ([v.1], rest)
        | _ => none

/-- The members of an object that has one, with the brace that closes it. -/
def members : Nat → List Char → Option (List (List Char × Value) × List Char)
  | 0, _ => none
  | fuel + 1, t =>
      match skipBlanks t with
      | '"' :: t =>
          (string t).bind fun key =>
            match skipBlanks key.2 with
            | ':' :: t =>
                (value fuel t).bind fun v =>
                  match skipBlanks v.2 with
                  | ',' :: rest => (members fuel rest).map fun p => ((key.1, v.1) :: p.1, p.2)
                  | '}' :: rest => some ([(key.1, v.1)], rest)
                  | _ => none
            | _ => none
      | _ => none
end

/-- **The reader**: one value, and blanks. -/
def parse (t : List Char) : Option Value :=
  match value (2 * t.length + 1) t with
  | some (v, rest) => if skipBlanks rest = [] then some v else none
  | none => none

/-! ## §5. The writer. -/

def hexDigit (n : Nat) : Char := Nat.digitChar n

/-- One character of a string. -/
def escapeChar (c : Char) : List Char :=
  if c = '"' then ['\\', '"']
  else if c = '\\' then ['\\', '\\']
  else if c = '\x08' then ['\\', 'b']
  else if c = '\x0c' then ['\\', 'f']
  else if c = '\n' then ['\\', 'n']
  else if c = '\r' then ['\\', 'r']
  else if c = '\t' then ['\\', 't']
  else if c.toNat < 0x20 then
    ['\\', 'u', '0', '0', hexDigit (c.toNat / 16), hexDigit (c.toNat % 16)]
  else [c]

/-- The characters between the quotes. -/
def escape (s : List Char) : List Char := s.flatMap escapeChar

def writeString (s : List Char) : List Char := '"' :: (escape s ++ ['"'])

mutual
def write : Value → List Char
  | .null => "null".toList
  | .boolean true => "true".toList
  | .boolean false => "false".toList
  | .number literal => literal
  | .string s => writeString s
  | .array vs => '[' :: writeItems vs
  | .object ms => '{' :: writeMembers ms

def writeItems : List Value → List Char
  | [] => [']']
  | [v] => write v ++ [']']
  | v :: vs => write v ++ ',' :: writeItems vs

def writeMembers : List (List Char × Value) → List Char
  | [] => ['}']
  | [m] => writeString m.1 ++ ':' :: (write m.2 ++ ['}'])
  | m :: ms => writeString m.1 ++ ':' :: (write m.2 ++ ',' :: writeMembers ms)
end

/-! ## §6. Strings are read back. -/

/-- What a written character is read as. -/
def partOf (c : Char) : Part := if (escapeChar c).length = 6 then .code c.toNat else .byte c

theorem codeUnit_control {n : Nat} (h : n < 0x20) :
    codeUnit '0' '0' (hexDigit (n / 16)) (hexDigit (n % 16)) = some n := by
  have hall : ∀ n < 0x20, codeUnit '0' '0' (hexDigit (n / 16)) (hexDigit (n % 16)) = some n := by
    decide
  exact hall n h

theorem parts_plain {c : Char} (hquote : c ≠ '"') (hslash : c ≠ '\\') (hprint : ¬ c.toNat < 0x20)
    (rest : List Char) : parts (c :: rest) = (parts rest).map fun p => (.byte c :: p.1, p.2) := by
  rw [parts, if_neg hprint]
  · exact fun h => hquote h
  · exact fun _ _ _ _ _ h => absurd h hslash
  · exact fun _ _ h => absurd h hslash

theorem parts_simple {c byte : Char} (h : simpleEscape c = some byte) (rest : List Char) :
    parts ('\\' :: c :: rest) = (parts rest).map fun p => (.byte byte :: p.1, p.2) := by
  have hu : c ≠ 'u' := by
    intro hc
    rw [hc] at h
    exact absurd (h : none = some byte) nofun
  rw [parts, h]
  · rfl
  · exact fun _ _ _ _ _ heq => absurd heq hu

/-- **One written character is read back.** -/
theorem parts_escapeChar (c : Char) (rest : List Char) :
    parts (escapeChar c ++ rest) = (parts rest).map fun p => (partOf c :: p.1, p.2) := by
  have hsimple : ∀ {e : Char}, escapeChar c = ['\\', e] → simpleEscape e = some c →
      parts (escapeChar c ++ rest) = (parts rest).map fun p => (partOf c :: p.1, p.2) := by
    intro e he hread
    have hpart : partOf c = .byte c := by
      unfold partOf
      rw [he]
      rfl
    rw [he, hpart]
    exact parts_simple hread rest
  by_cases hquote : c = '"'
  · rw [hquote] at hsimple ⊢
    exact hsimple rfl rfl
  by_cases hslash : c = '\\'
  · rw [hslash] at hsimple ⊢
    exact hsimple rfl rfl
  by_cases hb : c = '\x08'
  · rw [hb] at hsimple ⊢
    exact hsimple rfl rfl
  by_cases hf : c = '\x0c'
  · rw [hf] at hsimple ⊢
    exact hsimple rfl rfl
  by_cases hn : c = '\n'
  · rw [hn] at hsimple ⊢
    exact hsimple rfl rfl
  by_cases hr : c = '\r'
  · rw [hr] at hsimple ⊢
    exact hsimple rfl rfl
  by_cases ht : c = '\t'
  · rw [ht] at hsimple ⊢
    exact hsimple rfl rfl
  have hlong : escapeChar c = if c.toNat < 0x20 then
      ['\\', 'u', '0', '0', hexDigit (c.toNat / 16), hexDigit (c.toNat % 16)] else [c] := by
    unfold escapeChar
    rw [if_neg hquote, if_neg hslash, if_neg hb, if_neg hf, if_neg hn, if_neg hr, if_neg ht]
  unfold partOf
  rw [hlong]
  by_cases hcontrol : c.toNat < 0x20
  · rw [if_pos hcontrol]
    show parts ('\\' :: 'u' :: '0' :: '0' :: hexDigit (c.toNat / 16) :: hexDigit (c.toNat % 16)
      :: rest) = _
    rw [parts, codeUnit_control hcontrol]
    rfl
  · rw [if_neg hcontrol]
    exact parts_plain hquote hslash hcontrol rest

theorem parts_escape (s rest : List Char) :
    parts (escape s ++ '"' :: rest) = some (s.map partOf, rest) := by
  induction s with
  | nil => rfl
  | cons c cs ih =>
      show parts ((escapeChar c ++ escape cs) ++ '"' :: rest) = _
      rw [List.append_assoc, parts_escapeChar, ih]
      rfl

/-- A unit below the surrogates stands alone. -/
theorem bytesOf_code {n : Nat} (h : n < 0x80) (ps : List Part) :
    bytesOf (.code n :: ps) = (bytesOf ps).map (Char.ofNat n :: ·) := by
  have hutf8 : utf8 n = [Char.ofNat n] := if_pos h
  have hnone : ¬ (0xD800 ≤ n ∧ n < 0xE000) := by omega
  match ps with
  | [] =>
      show (if 0xD800 ≤ n ∧ n < 0xE000 then none else (bytesOf []).map (utf8 n ++ ·)) = _
      rw [if_neg hnone, hutf8]
      rfl
  | .byte c :: ps =>
      show (if 0xD800 ≤ n ∧ n < 0xE000 then none
        else (bytesOf (.byte c :: ps)).map (utf8 n ++ ·)) = _
      rw [if_neg hnone, hutf8]
      rfl
  | .code low :: ps =>
      rw [bytesOf, if_neg (by omega), if_neg (by omega), hutf8]
      rfl

theorem bytesOf_partOf (s : List Char) : bytesOf (s.map partOf) = some s := by
  induction s with
  | nil => rfl
  | cons c cs ih =>
      show bytesOf (partOf c :: cs.map partOf) = _
      by_cases hlong : (escapeChar c).length = 6
      · -- only control characters are written as code units
        have hcontrol : c.toNat < 0x20 := by
          by_contra hprint
          unfold escapeChar at hlong
          rw [if_neg hprint] at hlong
          split_ifs at hlong
          all_goals exact absurd hlong (by simp)
        have hpart : partOf c = .code c.toNat := if_pos hlong
        rw [hpart, bytesOf_code (by omega), ih, Char.ofNat_toNat]
        rfl
      · have hpart : partOf c = .byte c := if_neg hlong
        rw [hpart, bytesOf, ih]
        rfl

/-- **A written string is read back**, whatever its bytes. -/
theorem string_escape (s rest : List Char) : string (escape s ++ '"' :: rest) = some (s, rest) := by
  unfold string
  rw [parts_escape]
  show (bytesOf (s.map partOf)).map _ = _
  rw [bytesOf_partOf]
  rfl

/-! ## §7. Numbers are read back. -/

/-- No number goes on here. -/
def Stops (rest : List Char) : Prop :=
  ∀ c, rest.head? = some c → c.isDigit = false ∧ c ≠ '.' ∧ c ≠ 'e' ∧ c ≠ 'E'

theorem stops_cons {c : Char} {rest : List Char} (h : c = ',' ∨ c = ']' ∨ c = '}') :
    Stops (c :: rest) := by
  intro d hd
  have hcd : c = d := Option.some.inj hd
  rw [← hcd]
  obtain rfl | rfl | rfl := h <;> decide

/-- A decimal number begins with a digit, and with a zero only if it is zero. -/
theorem toDigits_head (n : Nat) :
    ∃ c cs, Nat.toDigits 10 n = c :: cs ∧ c.isDigit = true ∧ (n ≠ 0 → c ≠ '0') := by
  induction n using Nat.strong_induction_on with
  | _ n ih =>
      by_cases hsmall : n < 10
      · have hall : ∀ n < 10, n.digitChar.isDigit = true ∧ (n ≠ 0 → n.digitChar ≠ '0') := by decide
        exact ⟨_, [], Nat.toDigits_of_lt_base hsmall, hall n hsmall⟩
      · have ⟨c, cs, hcons, hdigit, hzero⟩ := ih (n / 10) (by omega)
        refine ⟨c, cs ++ [(n % 10).digitChar], ?_, hdigit, fun _ => hzero (by omega)⟩
        rw [Nat.toDigits_of_base_le (by omega) (by omega), hcons]
        rfl

theorem digits_toDigits (n : Nat) {rest : List Char} (hrest : Stops rest) :
    digits (Nat.toDigits 10 n ++ rest) = some (Nat.toDigits 10 n, rest) := by
  have hdigit : ∀ c ∈ Nat.toDigits 10 n, c.isDigit = true := fun c hc =>
    Nat.isDigit_of_mem_toDigits (by omega) (by omega) hc
  have htake : rest.takeWhile Char.isDigit = [] ∧ rest.dropWhile Char.isDigit = rest := by
    cases rest with
    | nil => exact ⟨rfl, rfl⟩
    | cons c cs =>
        have hc : ¬ c.isDigit = true := by
          rw [(hrest c rfl).1]
          nofun
        exact ⟨List.takeWhile_cons_of_neg hc, List.dropWhile_cons_of_neg hc⟩
  unfold digits
  rw [List.takeWhile_append_of_pos hdigit, List.dropWhile_append_of_pos hdigit, htake.1, htake.2,
    List.append_nil, if_neg Nat.toDigits_ne_nil]

theorem number_toDigits (n : Nat) {rest : List Char} (hrest : Stops rest) :
    number (Nat.toDigits 10 n ++ rest) = some (Nat.toDigits 10 n, rest) := by
  have ⟨c, cs, hcons, hdigit, hzero⟩ := toDigits_head n
  have hsign : sign ['-'] (Nat.toDigits 10 n ++ rest) = ([], Nat.toDigits 10 n ++ rest) := by
    have hminus : c ∉ ['-'] := by
      intro hmem
      rw [List.mem_singleton.mp hmem] at hdigit
      exact absurd hdigit (by decide)
    rw [hcons]
    exact if_neg hminus
  have hinteger : integer (Nat.toDigits 10 n ++ rest) = some (Nat.toDigits 10 n, rest) := by
    by_cases hn : n = 0
    · rw [hn]
      rfl
    · have hother : integer (Nat.toDigits 10 n ++ rest) = digits (Nat.toDigits 10 n ++ rest) := by
        rw [hcons]
        unfold integer
        split
        case h_1 heq => exact absurd (List.cons.inj heq).1 (hzero hn)
        case h_2 => rfl
      rw [hother, digits_toDigits n hrest]
  have hfraction : fraction rest = some ([], rest) := by
    unfold fraction
    split
    case h_1 => exact absurd rfl (hrest '.' rfl).2.1
    case h_2 => rfl
  have hexponent : exponent rest = some ([], rest) := by
    cases rest with
    | nil => rfl
    | cons d ds =>
        have hd := hrest d rfl
        exact if_neg fun h => h.elim hd.2.2.1 hd.2.2.2
  unfold number
  rw [hsign, hinteger, Option.bind_some, hfraction, Option.bind_some, hexponent]
  show some (Nat.toDigits 10 n ++ ([] ++ []), rest) = _
  rw [List.append_nil, List.append_nil]

/-! ## §8. Values are read back. -/

mutual
/-- Values with natural numbers for numbers. -/
def Writable : Value → Prop
  | .null | .boolean _ | .string _ => True
  | .number literal => ∃ n, literal = Nat.toDigits 10 n
  | .array vs => WritableItems vs
  | .object ms => WritableMembers ms

def WritableItems : List Value → Prop
  | [] => True
  | v :: vs => Writable v ∧ WritableItems vs

def WritableMembers : List (List Char × Value) → Prop
  | [] => True
  | m :: ms => Writable m.2 ∧ WritableMembers ms
end

/-- What is written begins with no blank and closes nothing. -/
theorem write_head {v : Value} (h : Writable v) :
    ∃ c cs, write v = c :: cs ∧ isBlank c = false ∧ c ≠ ']' := by
  cases v with
  | null => exact ⟨'n', _, by rw [write]; rfl, rfl, by decide⟩
  | boolean b =>
      cases b with
      | true => exact ⟨'t', _, by rw [write]; rfl, rfl, by decide⟩
      | false => exact ⟨'f', _, by rw [write]; rfl, rfl, by decide⟩
  | number literal =>
      rw [Writable] at h
      obtain ⟨n, rfl⟩ := h
      have ⟨c, cs, hcons, hdigit, _⟩ := toDigits_head n
      refine ⟨c, cs, by rw [write, hcons], ?_, ?_⟩
      · by_contra hblank
        simp only [isBlank, Bool.not_eq_false, Bool.or_eq_true, beq_iff_eq] at hblank
        obtain ((rfl | rfl) | rfl) | rfl := hblank <;> exact absurd hdigit (by decide)
      · rintro rfl
        exact absurd hdigit (by decide)
  | string s => exact ⟨'"', _, by rw [write, writeString], rfl, by decide⟩
  | array vs => exact ⟨'[', _, by rw [write], rfl, by decide⟩
  | object ms => exact ⟨'{', _, by rw [write], rfl, by decide⟩

theorem skipBlanks_cons {c : Char} (h : isBlank c = false) (t : List Char) :
    skipBlanks (c :: t) = c :: t := List.dropWhile_cons_of_neg (by rw [h]; nofun)

theorem keyword_append (word : List Char) (v : Value) (rest : List Char) :
    keyword word v (word ++ rest) = some (v, rest) := by
  unfold keyword
  rw [if_pos (List.isPrefixOf_iff_prefix.mpr (List.prefix_append _ _)), List.drop_left]

/-- A number where a value is looked for. -/
theorem value_number (n fuel : Nat) {rest : List Char} (hrest : Stops rest) :
    value (fuel + 1) (Nat.toDigits 10 n ++ rest) = some (.number (Nat.toDigits 10 n), rest) := by
  have ⟨c, cs, hcons, hdigit, _⟩ := toDigits_head n
  have hne : ∀ d : Char, d.isDigit = false → c ≠ d := by
    intro d hd hcd
    rw [hcd, hd] at hdigit
    exact absurd hdigit nofun
  have hblank : isBlank c = false := by
    simp only [isBlank, Bool.or_eq_false_iff, beq_eq_false_iff_ne]
    exact ⟨⟨⟨hne _ rfl, hne _ rfl⟩, hne _ rfl⟩, hne _ rfl⟩
  have hskip : skipBlanks (Nat.toDigits 10 n ++ rest) = c :: (cs ++ rest) := by
    rw [hcons]
    exact skipBlanks_cons hblank _
  have hnumber : number (c :: (cs ++ rest)) = some (Nat.toDigits 10 n, rest) := by
    rw [← number_toDigits n hrest, hcons]
    rfl
  rw [value, hskip]
  dsimp only
  rw [if_neg (hne _ rfl), if_neg (hne _ rfl), if_neg (hne _ rfl), if_neg (hne _ rfl),
    if_neg (hne _ rfl), if_neg (hne _ rfl), hnumber]
  rfl

/-- An array where a value is looked for. -/
theorem value_array {vs : List Value} {fuel : Nat} {rest : List Char} (hne : vs ≠ [])
    (hwritable : WritableItems vs)
    (h : items fuel (writeItems vs ++ rest) = some (vs, rest)) :
    value (fuel + 1) ('[' :: (writeItems vs ++ rest)) = some (.array vs, rest) := by
  obtain ⟨c, cs, hcons, hblank, hclose⟩ : ∃ c cs, writeItems vs ++ rest = c :: cs
      ∧ isBlank c = false ∧ c ≠ ']' := by
    match vs, hne with
    | [v], _ =>
        rw [WritableItems] at hwritable
        have ⟨c, cs, hcons, hc⟩ := write_head hwritable.1
        refine ⟨c, cs ++ [']'] ++ rest, ?_, hc⟩
        rw [writeItems, hcons]
        rfl
    | v :: w :: vs, _ =>
        rw [WritableItems] at hwritable
        have ⟨c, cs, hcons, hc⟩ := write_head hwritable.1
        refine ⟨c, cs ++ ',' :: writeItems (w :: vs) ++ rest, ?_, hc⟩
        rw [writeItems, hcons]
        · rfl
        · nofun
  rw [value, skipBlanks_cons rfl]
  dsimp only
  rw [if_neg (by decide), if_pos rfl, h, hcons, skipBlanks_cons hblank]
  split
  case h_1 heq => exact absurd (List.cons.inj heq).1 hclose
  case h_2 => rfl

/-- An object where a value is looked for. -/
theorem value_object {ms : List (List Char × Value)} {fuel : Nat} {rest : List Char} (hne : ms ≠ [])
    (h : members fuel (writeMembers ms ++ rest) = some (ms, rest)) :
    value (fuel + 1) ('{' :: (writeMembers ms ++ rest)) = some (.object ms, rest) := by
  obtain ⟨cs, hcons⟩ : ∃ cs, writeMembers ms ++ rest = '"' :: cs := by
    match ms, hne with
    | [m], _ =>
        rw [writeMembers]
        exact ⟨_, rfl⟩
    | m :: n :: ms, _ =>
        rw [writeMembers]
        · exact ⟨_, rfl⟩
        · nofun
  rw [value, skipBlanks_cons rfl]
  dsimp only
  rw [if_neg (by decide), if_neg (by decide), if_pos rfl, h, hcons, skipBlanks_cons rfl]
  rfl

/-- The last item. -/
theorem items_last {fuel : Nat} {t rest : List Char} {v : Value}
    (hv : value fuel t = some (v, ']' :: rest)) : items (fuel + 1) t = some ([v], rest) := by
  rw [items, hv]
  show (match skipBlanks (']' :: rest) with
    | ',' :: s => (items fuel s).map fun p : List Value × List Char => (v :: p.1, p.2)
    | ']' :: rest => some ([v], rest)
    | _ => none) = _
  rw [skipBlanks_cons rfl]
  rfl

/-- An item with more behind it. -/
theorem items_more {fuel : Nat} {t s rest : List Char} {v : Value} {vs : List Value}
    (hv : value fuel t = some (v, ',' :: s)) (hvs : items fuel s = some (vs, rest)) :
    items (fuel + 1) t = some (v :: vs, rest) := by
  rw [items, hv]
  show (match skipBlanks (',' :: s) with
    | ',' :: s => (items fuel s).map fun p : List Value × List Char => (v :: p.1, p.2)
    | ']' :: rest => some ([v], rest)
    | _ => none) = _
  rw [skipBlanks_cons rfl]
  show (items fuel s).map (fun p : List Value × List Char => (v :: p.1, p.2)) = _
  rw [hvs]
  rfl

/-- Up to the value of a member. -/
theorem members_key {fuel : Nat} {t s : List Char} {v : Value} (key : List Char)
    (hv : value fuel t = some (v, s)) :
    members (fuel + 1) (writeString key ++ ':' :: t)
      = match skipBlanks s with
        | ',' :: rest => (members fuel rest).map fun p => ((key, v) :: p.1, p.2)
        | '}' :: rest => some ([(key, v)], rest)
        | _ => none := by
  have htext : writeString key ++ ':' :: t = '"' :: (escape key ++ '"' :: ':' :: t) := by
    simp [writeString]
  rw [htext, members, skipBlanks_cons rfl]
  show (string (escape key ++ '"' :: ':' :: t)).bind _ = _
  rw [string_escape, Option.bind_some, skipBlanks_cons rfl]
  show (value fuel t).bind _ = _
  rw [hv, Option.bind_some]

/-- The last member. -/
theorem members_last {fuel : Nat} {t rest : List Char} {v : Value} (key : List Char)
    (hv : value fuel t = some (v, '}' :: rest)) :
    members (fuel + 1) (writeString key ++ ':' :: t) = some ([(key, v)], rest) := by
  rw [members_key key hv, skipBlanks_cons rfl]
  rfl

/-- A member with more behind it. -/
theorem members_more {fuel : Nat} {t s rest : List Char} {v : Value}
    {ms : List (List Char × Value)} (key : List Char) (hv : value fuel t = some (v, ',' :: s))
    (hms : members fuel s = some (ms, rest)) :
    members (fuel + 1) (writeString key ++ ':' :: t) = some ((key, v) :: ms, rest) := by
  rw [members_key key hv, skipBlanks_cons rfl]
  show (members fuel s).map _ = _
  rw [hms]
  rfl

mutual
/-- **A written value is read back**, with fuel for the text and what is behind
it. -/
theorem value_write : ∀ (v : Value) {fuel : Nat} {rest : List Char}, Writable v → Stops rest →
    2 * (write v ++ rest).length + 1 ≤ fuel → value fuel (write v ++ rest) = some (v, rest)
  | .null, fuel + 1, rest, _, _, _ => by
      rw [write, value]
      exact keyword_append ['u', 'l', 'l'] .null rest
  | .boolean true, fuel + 1, rest, _, _, _ => by
      rw [write, value]
      exact keyword_append ['r', 'u', 'e'] (.boolean true) rest
  | .boolean false, fuel + 1, rest, _, _, _ => by
      rw [write, value]
      exact keyword_append ['a', 'l', 's', 'e'] (.boolean false) rest
  | .number literal, fuel + 1, rest, h, hrest, _ => by
      rw [Writable] at h
      obtain ⟨n, rfl⟩ := h
      rw [write]
      exact value_number n fuel hrest
  | .string s, fuel + 1, rest, _, _, _ => by
      rw [write, writeString, value]
      show (string ((escape s ++ ['"']) ++ rest)).map _ = _
      rw [List.append_assoc]
      show (string (escape s ++ '"' :: rest)).map _ = _
      rw [string_escape]
      rfl
  | .array [], fuel + 1, rest, _, _, _ => by
      rw [write, writeItems, value]
      rfl
  | .array (v :: vs), fuel + 1, rest, h, _, hfuel => by
      rw [Writable] at h
      rw [write, List.cons_append] at hfuel ⊢
      rw [List.length_cons] at hfuel
      exact value_array nofun h (items_write (v :: vs) nofun h (by omega))
  | .object [], fuel + 1, rest, _, _, _ => by
      rw [write, writeMembers, value]
      rfl
  | .object (m :: ms), fuel + 1, rest, h, _, hfuel => by
      rw [Writable] at h
      rw [write, List.cons_append] at hfuel ⊢
      rw [List.length_cons] at hfuel
      exact value_object nofun (members_write (m :: ms) nofun h (by omega))

theorem items_write : ∀ (vs : List Value) {fuel : Nat} {rest : List Char}, vs ≠ [] →
    WritableItems vs → 2 * (writeItems vs ++ rest).length + 2 ≤ fuel →
    items fuel (writeItems vs ++ rest) = some (vs, rest)
  | [v], fuel + 1, rest, _, h, hfuel => by
      rw [WritableItems] at h
      rw [writeItems, List.append_assoc] at hfuel ⊢
      exact items_last (value_write v h.1 (stops_cons (Or.inr (Or.inl rfl))) (by omega))
  | v :: w :: vs, fuel + 1, rest, _, h, hfuel => by
      rw [WritableItems] at h
      rw [writeItems.eq_3 v (w :: vs) nofun, List.append_assoc, List.cons_append] at hfuel ⊢
      refine items_more (value_write v h.1 (stops_cons (Or.inl rfl)) (by omega))
        (items_write (w :: vs) nofun h.2 ?_)
      rw [List.length_append, List.length_cons] at hfuel
      omega

theorem members_write : ∀ (ms : List (List Char × Value)) {fuel : Nat} {rest : List Char}, ms ≠ [] →
    WritableMembers ms → 2 * (writeMembers ms ++ rest).length + 2 ≤ fuel →
    members fuel (writeMembers ms ++ rest) = some (ms, rest)
  | [(key, v)], fuel + 1, rest, _, h, hfuel => by
      rw [WritableMembers] at h
      rw [writeMembers, List.append_assoc, List.cons_append, List.append_assoc] at hfuel ⊢
      refine members_last key (value_write v h.1 (stops_cons (Or.inr (Or.inr rfl))) ?_)
      rw [List.length_append, List.length_cons] at hfuel
      dsimp only at hfuel
      omega
  | (key, v) :: m :: ms, fuel + 1, rest, _, h, hfuel => by
      rw [WritableMembers] at h
      rw [writeMembers.eq_3 (key, v) (m :: ms) nofun, List.append_assoc, List.cons_append,
        List.append_assoc, List.cons_append] at hfuel ⊢
      rw [List.length_append, List.length_cons] at hfuel
      dsimp only at hfuel
      have hlen : (write v ++ ',' :: (writeMembers (m :: ms) ++ rest)).length
          = (write v).length + ((writeMembers (m :: ms) ++ rest).length + 1) := by
        rw [List.length_append, List.length_cons]
      exact members_more key (value_write v h.1 (stops_cons (Or.inl rfl)) (by omega))
        (members_write (m :: ms) nofun h.2 (by omega))
end

/-- **The reader takes what the writer wrote**, with blanks behind it. -/
theorem parse_write {v : Value} (h : Writable v) {blanks : List Char}
    (hblanks : ∀ c ∈ blanks, isBlank c = true) : parse (write v ++ blanks) = some v := by
  have hstops : Stops blanks := by
    intro c hc
    have hblank := hblanks c (List.mem_of_mem_head? hc)
    simp only [isBlank, Bool.or_eq_true, beq_iff_eq] at hblank
    obtain ((rfl | rfl) | rfl) | rfl := hblank <;> decide
  have hskip : skipBlanks blanks = [] := List.dropWhile_eq_nil_iff.mpr hblanks
  unfold parse
  rw [value_write v h hstops (Nat.le_refl _)]
  exact if_pos hskip

/-! ## §9. An array that is not closed. -/

/-- The bracket is the last thing that is written. -/
theorem exists_unclosed (vs : List Value) : ∃ t, writeItems vs = t ++ [']'] := by
  induction vs with
  | nil => exact ⟨[], by rw [writeItems]; rfl⟩
  | cons v vs ih =>
      cases vs with
      | nil => exact ⟨write v, by rw [writeItems]⟩
      | cons w vs =>
          obtain ⟨t, ht⟩ := ih
          refine ⟨write v ++ ',' :: t, ?_⟩
          rw [writeItems.eq_3 v (w :: vs) nofun, ht, List.append_assoc]
          rfl

/-- The reader gets to the end of the text and finds neither a comma nor a
bracket. -/
theorem items_unclosed : ∀ (vs : List Value) {fuel : Nat} {t : List Char}, vs ≠ [] → WritableItems vs →
    writeItems vs = t ++ [']'] → 2 * t.length + 2 ≤ fuel → items fuel t = none
  | [v], fuel + 1, t, _, h, ht, hfuel => by
      rw [WritableItems] at h
      rw [writeItems] at ht
      have hwrite : write v = t := List.append_cancel_right ht
      have hv : value fuel (write v ++ []) = some (v, []) :=
        value_write v h.1 nofun (by rw [List.append_nil, hwrite]; omega)
      rw [List.append_nil, hwrite] at hv
      rw [items, hv]
      rfl
  | v :: w :: vs, fuel + 1, t, _, h, ht, hfuel => by
      rw [WritableItems] at h
      obtain ⟨s, hs⟩ := exists_unclosed (w :: vs)
      rw [writeItems.eq_3 v (w :: vs) nofun, hs, ← List.cons_append, ← List.append_assoc] at ht
      have hwrite : write v ++ ',' :: s = t := List.append_cancel_right ht
      subst hwrite
      have hlen : (write v ++ ',' :: s).length = (write v).length + (s.length + 1) := by
        rw [List.length_append, List.length_cons]
      rw [items, value_write v h.1 (stops_cons (Or.inl rfl)) (by omega)]
      show (match skipBlanks (',' :: s) with
        | ',' :: s => (items fuel s).map fun p : List Value × List Char => (v :: p.1, p.2)
        | ']' :: rest => some ([v], rest)
        | _ => none) = _
      rw [skipBlanks_cons rfl]
      show (items fuel s).map (fun p : List Value × List Char => (v :: p.1, p.2)) = _
      rw [items_unclosed (w :: vs) nofun h.2 hs (by omega)]
      rfl

/-- **An array without its bracket is no value.** -/
theorem parse_unclosed {vs : List Value} (h : WritableItems vs) {t : List Char}
    (ht : writeItems vs = t ++ [']']) : parse ('[' :: t) = none := by
  have hvalue : value (2 * ('[' :: t).length + 1) ('[' :: t) = none := by
    rw [value, skipBlanks_cons rfl]
    dsimp only
    rw [if_neg (by decide), if_pos rfl]
    cases vs with
    | nil =>
        rw [writeItems] at ht
        have hnil : t = [] := (List.append_cancel_right (show [] ++ [']'] = t ++ [']'] from ht)).symm
        subst hnil
        rfl
    | cons v vs =>
        have hnone : items (2 * ('[' :: t).length) t = none :=
          items_unclosed (v :: vs) nofun h ht (by rw [List.length_cons]; omega)
        -- the first item begins with no blank, and it is no bracket
        obtain ⟨c, cs, hcons, hblank, hclose⟩ : ∃ c cs, t = c :: cs ∧ isBlank c = false ∧ c ≠ ']' := by
          rw [WritableItems] at h
          obtain ⟨c, cs, hcons, hc⟩ := write_head h.1
          cases vs with
          | nil =>
              rw [writeItems] at ht
              exact ⟨c, cs, by rw [← List.append_cancel_right ht, hcons], hc⟩
          | cons w vs =>
              obtain ⟨s, hs⟩ := exists_unclosed (w :: vs)
              rw [writeItems.eq_3 v (w :: vs) nofun, hs, ← List.cons_append, ← List.append_assoc] at ht
              refine ⟨c, cs ++ ',' :: s, ?_, hc⟩
              rw [← List.append_cancel_right ht, hcons]
              rfl
        rw [hnone, hcons, skipBlanks_cons hblank]
        split
        case h_1 heq => exact absurd (List.cons.inj heq).1 hclose
        case h_2 => rfl
  unfold parse
  rw [hvalue]

end JsonText
