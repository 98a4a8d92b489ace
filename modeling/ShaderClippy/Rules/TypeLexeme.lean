/-
  ShaderClippy.Rules.TypeLexeme

  **HOW MANY BITS A TYPE HAS, BY ITS TEXT** (`type_lexeme_bits`,
  `rules/util/register_pressure_ast.cpp`).

  The reader knows the scalars by their names and takes a digit, or two with an
  `x` between them, for a shape. In `vector<T,N>` and `matrix<T,R,C>` it reads
  the scalar again, and every digit behind it.

  Of the spellings of a built-in type it reads all but those with a blank in
  front of `<`, or one other than a space or a tab in front of the scalar
  (`typeLexemeBits_text`).
-/
import Mathlib
import ShaderClippy.Hlsl.Token
import ShaderClippy.Lib.Lines
import ShaderClippy.Lib.Trim

namespace ShaderClippy.Rules.TypeLexeme

open Hlsl (isSpace)

/-! ## §1. The reader. -/

/-- `k_prefixes`. -/
def kQualifiers : List Text :=
  ["row_major ", "column_major ", "snorm ", "unorm ", "centroid ", "noperspective ", "linear ", "sample ",
    "nointerpolation ", "precise ", "uniform ", "static ", "const ", "globallycoherent ", "groupshared "].map
    String.toList

/-- `k_scalar_prefixes`. -/
def kScalarPrefixes : List (Text × UInt32) :=
  [("min16float".toList, 16), ("min10float".toList, 16), ("min16int".toList, 16), ("min12int".toList, 16),
    ("min16uint".toList, 16), ("float16_t".toList, 16), ("int16_t".toList, 16), ("uint16_t".toList, 16),
    ("float32_t".toList, 32), ("int32_t".toList, 32), ("uint32_t".toList, 32), ("float64_t".toList, 64),
    ("int64_t".toList, 64), ("uint64_t".toList, 64), ("double".toList, 64), ("float".toList, 32),
    ("half".toList, 16), ("uint".toList, 32), ("int".toList, 32), ("bool".toList, 32)]

/-- The loop that strips qualifiers. -/
def stripQualifiers : Nat → Text → Text
  | 0, typeName => typeName
  | fuel + 1, typeName =>
      match kQualifiers.find? (·.isPrefixOf typeName) with
      | none => typeName
      | some pfx => stripQualifiers fuel (typeName.drop pfx.length)

/-- `parse_digit`. -/
def parseDigit (c : Char) : UInt32 := if c.isDigit then UInt32.ofNat (c.toNat - '0'.toNat) else 0

/-- The shape behind a scalar. -/
def shapeBits (scalarBits : UInt32) (rest : Text) : UInt32 :=
  match rest with
  | [] => scalarBits
  | c :: rest =>
      let a := parseDigit c
      if a = 0 then scalarBits
      else
        match rest with
        | 'x' :: d :: _ => if parseDigit d ≠ 0 then scalarBits * a * parseDigit d else scalarBits * a
        | _ => scalarBits * a

/-- What is between the first `<` and the last `>`, if there is anything. -/
def innerOf (typeName : Text) : Option Text :=
  let behind := ((typeName.dropWhile (· != '<')).drop 1).reverse.dropWhile (· != '>')
  if (behind.drop 1).isEmpty then none else some (behind.drop 1).reverse

/-- The digits of a template argument, whatever stands between them; none count
as one. -/
def dimension (tok : Text) : UInt32 :=
  let v : UInt32 :=
    tok.foldl (fun v c => if c.isDigit then v * 10 + UInt32.ofNat (c.toNat - '0'.toNat) else v) 0
  if v = 0 then 1 else v

/-- The loop over the other template arguments. It does not come to an empty last
one, which would count as one. -/
def dimensions (rem : Text) : UInt32 := (Lines.split ',' rem).foldl (fun product tok => product * dimension tok) 1

/-- What is trimmed off the scalar. -/
def isTrimmed (c : Char) : Bool := c == ' ' || c == '\t'

/-- The recursion of `type_lexeme_bits`. -/
def lexemeBitsFrom : Nat → Text → UInt32
  | 0, _ => 0
  | fuel + 1, typeName =>
      let typeName := stripQualifiers typeName.length typeName
      match kScalarPrefixes.find? (fun p => p.1.isPrefixOf typeName) with
      | some p => shapeBits p.2 (typeName.drop p.1.length)
      | none =>
          if "vector<".toList.isPrefixOf typeName || "matrix<".toList.isPrefixOf typeName then
            match innerOf typeName with
            | none => 0
            | some inner =>
                let scalar := inner.takeWhile (· != ',')
                let innerBits := lexemeBitsFrom fuel (Trim.trim isTrimmed scalar)
                if innerBits = 0 then 0
                else
                  match inner.dropWhile (· != ',') with
                  | [] => innerBits
                  | _ :: rem => innerBits * dimensions rem
          else 0

/-- `type_lexeme_bits`. -/
def typeLexemeBits (typeName : Text) : UInt32 := lexemeBitsFrom (typeName.length + 1) typeName

/-! ## §2. Built-in types. -/

/-- The scalar types. -/
inductive Scalar where
  | min16float | min10float | min16int | min12int | min16uint
  | float16 | int16 | uint16 | float32 | int32 | uint32 | float64 | int64 | uint64
  | double | float | half | uint | int | bool
  deriving DecidableEq, Repr

namespace Scalar

def name : Scalar → Text
  | min16float => "min16float".toList
  | min10float => "min10float".toList
  | min16int => "min16int".toList
  | min12int => "min12int".toList
  | min16uint => "min16uint".toList
  | float16 => "float16_t".toList
  | int16 => "int16_t".toList
  | uint16 => "uint16_t".toList
  | float32 => "float32_t".toList
  | int32 => "int32_t".toList
  | uint32 => "uint32_t".toList
  | float64 => "float64_t".toList
  | int64 => "int64_t".toList
  | uint64 => "uint64_t".toList
  | double => "double".toList
  | float => "float".toList
  | half => "half".toList
  | uint => "uint".toList
  | int => "int".toList
  | bool => "bool".toList

/-- How many bits it takes: those of minimum precision are kept in 16, a `bool`
in 32. -/
def bits : Scalar → Nat
  | min16float | min10float | min16int | min12int | min16uint | float16 | int16 | uint16 | half => 16
  | float64 | int64 | uint64 | double => 64
  | float32 | int32 | uint32 | float | uint | int | bool => 32

def all : List Scalar :=
  [min16float, min10float, min16int, min12int, min16uint, float16, int16, uint16, float32, int32, uint32, float64,
    int64, uint64, double, float, half, uint, int, bool]

theorem mem_all (s : Scalar) : s ∈ all := by
  cases s <;> decide

end Scalar

/-- One to four, as a digit. -/
def digit (n : Fin 4) : Char := ['1', '2', '3', '4'].get n

/-- Blanks. -/
structure Blanks where
  text : Text
  blank : ∀ c ∈ text, isSpace c = true

/-- A dimension, with the blanks around it. -/
structure Dimension where
  before : Blanks
  size : Fin 4
  behind : Blanks

/-- The ways to write a built-in type. -/
inductive Spelling where
  | scalar (s : Scalar)
  | vector (s : Scalar) (n : Fin 4)
  | matrix (s : Scalar) (rows columns : Fin 4)
  | vectorOf (angle : Blanks) (before : Blanks) (s : Scalar) (behind : Blanks) (n : Dimension)
  | matrixOf (angle : Blanks) (before : Blanks) (s : Scalar) (behind : Blanks) (rows columns : Dimension)

def Dimension.text (n : Dimension) : Text := n.before.text ++ digit n.size :: n.behind.text

namespace Spelling

def text : Spelling → Text
  | scalar s => s.name
  | vector s n => s.name ++ [digit n]
  | matrix s rows columns => s.name ++ [digit rows, 'x', digit columns]
  | vectorOf angle before s behind n =>
      "vector".toList ++ (angle.text ++ '<' :: (before.text ++ s.name ++ behind.text ++ ',' :: (n.text ++ ['>'])))
  | matrixOf angle before s behind rows columns =>
      "matrix".toList ++ (angle.text ++ '<' :: (before.text ++ s.name ++ behind.text
        ++ ',' :: (rows.text ++ ',' :: columns.text ++ ['>'])))

/-- The bits of the type. -/
def bits : Spelling → Nat
  | scalar s => s.bits
  | vector s n => s.bits * (n + 1)
  | matrix s rows columns => s.bits * (rows + 1) * (columns + 1)
  | vectorOf _ _ s _ n => s.bits * (n.size + 1)
  | matrixOf _ _ s _ rows columns => s.bits * (rows.size + 1) * (columns.size + 1)

/-- Blanks the reader gets past. -/
def Readable : Spelling → Prop
  | vectorOf angle before .. => angle.text = [] ∧ ∀ c ∈ before.text, isTrimmed c = true
  | matrixOf angle before .. => angle.text = [] ∧ ∀ c ∈ before.text, isTrimmed c = true
  | _ => True

instance : DecidablePred Readable := fun t =>
  match t with
  | scalar _ | vector _ _ | matrix _ _ _ => .isTrue trivial
  | vectorOf angle before .. | matrixOf angle before .. =>
      inferInstanceAs (Decidable (angle.text = [] ∧ ∀ c ∈ before.text, isTrimmed c = true))

end Spelling

/-! ## §3. Words. -/

/-- **A scalar with a shape behind it.** -/
theorem word_bits (s : Scalar) :
    (typeLexemeBits s.name).toNat = s.bits
      ∧ (∀ n, (typeLexemeBits (s.name ++ [digit n])).toNat = s.bits * (n + 1))
      ∧ ∀ n m, (typeLexemeBits (s.name ++ [digit n, 'x', digit m])).toNat = s.bits * (n + 1) * (m + 1) := by
  have hall : (Scalar.all.all fun s => decide ((typeLexemeBits s.name).toNat = s.bits)
      && (List.finRange 4).all fun n => decide ((typeLexemeBits (s.name ++ [digit n])).toNat = s.bits * (n + 1))
        && (List.finRange 4).all fun m =>
          decide ((typeLexemeBits (s.name ++ [digit n, 'x', digit m])).toNat = s.bits * (n + 1) * (m + 1))) = true := by
    decide +kernel
  have hs := List.all_eq_true.mp hall s s.mem_all
  simp only [Bool.and_eq_true, decide_eq_true_eq, List.all_eq_true, List.mem_finRange, forall_const] at hs
  exact ⟨hs.1, fun n => (hs.2 n).1, fun n m => (hs.2 n).2 m⟩

/-- Behind a scalar with no digit there is no shape. -/
theorem lexemeBits_scalar (s : Scalar) {rest : Text} (hrest : ∀ c, rest.head? = some c → isSpace c = true)
    (fuel : Nat) : (lexemeBitsFrom (fuel + 1) (s.name ++ rest)).toNat = s.bits := by
  have hshape : ∀ bits : UInt32, shapeBits bits rest = bits := by
    intro bits
    cases rest with
    | nil => rfl
    | cons c rest =>
        obtain rfl | rfl | rfl | rfl := Hlsl.isSpace_cases (hrest c rfl) <;> rfl
  cases rest with
  | nil => cases s <;> rfl
  | cons c rest =>
      obtain rfl | rfl | rfl | rfl := Hlsl.isSpace_cases (hrest c rfl) <;> cases s <;> exact congrArg UInt32.toNat (hshape _)

/-- A text that begins with a blank is no type. -/
theorem lexemeBits_blank {c : Char} (hc : isSpace c = true) (rest : Text) (fuel : Nat) :
    lexemeBitsFrom fuel (c :: rest) = 0 := by
  cases fuel with
  | zero => rfl
  | succ fuel => obtain rfl | rfl | rfl | rfl := Hlsl.isSpace_cases hc <;> rfl

theorem Spelling.text_ne_nil (t : Spelling) : t.text ≠ [] := by
  cases t with
  | scalar s => cases s <;> nofun
  | vector s n => exact List.append_ne_nil_of_right_ne_nil _ nofun
  | matrix s rows columns => exact List.append_ne_nil_of_right_ne_nil _ nofun
  | vectorOf => nofun
  | matrixOf => nofun

/-! ## §4. Templates. -/

/-- The templates. -/
def IsTemplate (word : Text) : Prop := word = "vector".toList ∨ word = "matrix".toList

/-- A template with a blank behind its name is not one to the reader. -/
theorem lexemeBits_spaced {word : Text} (hword : IsTemplate word) {c : Char} (hc : isSpace c = true)
    (rest : Text) (fuel : Nat) : lexemeBitsFrom fuel (word ++ c :: rest) = 0 := by
  cases fuel with
  | zero => rfl
  | succ fuel => obtain rfl | rfl := hword <;> obtain rfl | rfl | rfl | rfl := Hlsl.isSpace_cases hc <;> rfl

/-- Between the brackets. -/
theorem innerOf_template {word : Text} (hword : IsTemplate word) {inner : Text} (hne : inner ≠ []) :
    innerOf (word ++ '<' :: (inner ++ ['>'])) = some inner := by
  have hopen : ((word ++ '<' :: (inner ++ ['>'])).dropWhile (· != '<')).drop 1 = inner ++ ['>'] := by
    obtain rfl | rfl := hword <;> rfl
  have hclose : ((inner ++ ['>']).reverse.dropWhile (· != '>')).drop 1 = inner.reverse := by
    rw [List.reverse_append]
    rfl
  have hsome : inner.reverse.isEmpty = false := by
    rw [List.isEmpty_reverse, List.isEmpty_eq_false_iff]
    exact hne
  unfold innerOf
  dsimp only
  rw [hopen, hclose, hsome, List.reverse_reverse]
  rfl

/-- **A template, by its scalar and its dimensions.** -/
theorem lexemeBits_template {word : Text} (hword : IsTemplate word) {scalar : Text} (hscalar : ',' ∉ scalar)
    (dims : Text) (fuel : Nat) :
    lexemeBitsFrom (fuel + 1) (word ++ '<' :: (scalar ++ ',' :: dims ++ ['>']))
      = lexemeBitsFrom fuel (Trim.trim isTrimmed scalar) * dimensions dims := by
  have hkeep : ∀ c ∈ scalar, (c != ',') = true := by
    intro c hc
    rw [bne_iff_ne]
    rintro rfl
    exact hscalar hc
  have htake : (scalar ++ ',' :: dims).takeWhile (· != ',') = scalar := by
    rw [List.takeWhile_append_of_pos hkeep, List.takeWhile_cons_of_neg (by decide), List.append_nil]
  have hdrop : (scalar ++ ',' :: dims).dropWhile (· != ',') = ',' :: dims := by
    rw [List.dropWhile_append_of_pos hkeep, List.dropWhile_cons_of_neg (by decide)]
  have hinner : innerOf (word ++ '<' :: (scalar ++ ',' :: dims ++ ['>'])) = some (scalar ++ ',' :: dims) :=
    innerOf_template hword (by simp)
  have hread : lexemeBitsFrom (fuel + 1) (word ++ '<' :: (scalar ++ ',' :: dims ++ ['>']))
      = (match innerOf (word ++ '<' :: (scalar ++ ',' :: dims ++ ['>'])) with
          | none => 0
          | some inner =>
              if lexemeBitsFrom fuel (Trim.trim isTrimmed (inner.takeWhile (· != ','))) = 0 then 0
              else
                match inner.dropWhile (· != ',') with
                | [] => lexemeBitsFrom fuel (Trim.trim isTrimmed (inner.takeWhile (· != ',')))
                | _ :: rem =>
                    lexemeBitsFrom fuel (Trim.trim isTrimmed (inner.takeWhile (· != ','))) * dimensions rem) := by
    obtain rfl | rfl := hword <;> rfl
  rw [hread, hinner]
  dsimp only
  rw [htake, hdrop]
  dsimp only
  split
  next hzero => rw [hzero, UInt32.zero_mul]
  next => rfl

/-! What is trimmed. -/

theorem name_chars (s : Scalar) : s.name ≠ [] ∧ ∀ c ∈ s.name, isTrimmed c = false ∧ c ≠ ',' := by
  have hall : (s.name.all fun c => !isTrimmed c && c != ',') = true := by
    cases s <;> rfl
  refine ⟨by cases s <;> nofun, fun c hc => ?_⟩
  simpa using List.all_eq_true.mp hall c hc

theorem comma_not_mem_blanks (b : Blanks) : ',' ∉ b.text := by
  intro h
  have := b.blank _ h
  cases this

theorem comma_not_mem_scalar (before : Blanks) (s : Scalar) (behind : Blanks) :
    ',' ∉ before.text ++ s.name ++ behind.text := by
  rw [List.mem_append, List.mem_append]
  rintro ((h | h) | h)
  · exact comma_not_mem_blanks before h
  · exact ((name_chars s).2 _ h).2 rfl
  · exact comma_not_mem_blanks behind h

/-- The scalar is left with blanks behind it that are not trimmed. -/
theorem trim_scalar {before : Blanks} (hbefore : ∀ c ∈ before.text, isTrimmed c = true) (s : Scalar)
    (behind : Blanks) : ∃ rest, Trim.trim isTrimmed (before.text ++ s.name ++ behind.text) = s.name ++ rest
      ∧ ∀ c, rest.head? = some c → isSpace c = true := by
  have ⟨hne, hchars⟩ := name_chars s
  obtain ⟨first, tail, hname⟩ := List.exists_cons_of_ne_nil hne
  have hfront : (before.text ++ s.name ++ behind.text).dropWhile isTrimmed = s.name ++ behind.text := by
    have hfirst : isTrimmed first = false := (hchars first (hname ▸ List.mem_cons_self)).1
    rw [List.append_assoc, List.dropWhile_append_of_pos hbefore, hname, List.cons_append,
      List.dropWhile_cons_of_neg (by rw [hfirst]; nofun)]
  have hback : (s.name ++ behind.text).rdropWhile isTrimmed = s.name ++ behind.text.rdropWhile isTrimmed := by
    have hlast : isTrimmed (s.name.getLast hne) = false := (hchars _ (List.getLast_mem hne)).1
    rw [← List.dropLast_concat_getLast hne, List.append_assoc, List.append_assoc]
    exact Trim.rdropWhile_append_stop hlast _ _
  refine ⟨behind.text.rdropWhile isTrimmed, by rw [Trim.trim, hfront, hback], fun c hc => ?_⟩
  exact behind.blank c ((List.rdropWhile_prefix ..).subset (List.mem_of_mem_head? hc))

/-- A blank that is not trimmed stays in front of the scalar. -/
theorem trim_blank {before : Blanks} (hbefore : ¬ ∀ c ∈ before.text, isTrimmed c = true) (rest : Text) :
    ∃ c more, Trim.trim isTrimmed (before.text ++ rest) = c :: more ∧ isSpace c = true := by
  cases hdrop : before.text.dropWhile isTrimmed with
  | nil => exact absurd (List.dropWhile_eq_nil_iff.mp hdrop) hbefore
  | cons c more =>
      have hc : isTrimmed c = false := by
        have := List.head?_dropWhile_not isTrimmed before.text
        rw [hdrop] at this
        simpa using this
      have hsplit : before.text ++ rest = before.text.takeWhile isTrimmed ++ c :: (more ++ rest) := by
        conv_lhs => rw [← List.takeWhile_append_dropWhile (p := isTrimmed) (l := before.text), hdrop]
        rw [List.append_assoc, List.cons_append]
      have hfront : (before.text.takeWhile isTrimmed).dropWhile isTrimmed = [] :=
        List.dropWhile_eq_nil_iff.mpr fun d hd => List.mem_takeWhile_imp hd
      refine ⟨c, (more ++ rest).rdropWhile isTrimmed, ?_, before.blank c ?_⟩
      · rw [hsplit, Trim.trim_append_stop hc, hfront, List.nil_append]
      · exact (List.dropWhile_suffix isTrimmed).subset (hdrop ▸ List.mem_cons_self)

/-! Dimensions. -/

/-- Digits are all that counts. -/
theorem dimension_text (n : Dimension) : (dimension n.text).toNat = n.size + 1 := by
  have hskip : ∀ (b : Blanks) (v : UInt32), b.text.foldl
      (fun v c => if c.isDigit then v * 10 + UInt32.ofNat (c.toNat - '0'.toNat) else v) v = v := by
    intro ⟨b, hb⟩ v
    dsimp only
    induction b with
    | nil => rfl
    | cons c cs ih =>
        have hdigit : c.isDigit = false := by
          obtain rfl | rfl | rfl | rfl := Hlsl.isSpace_cases (hb c List.mem_cons_self) <;> rfl
        rw [List.foldl_cons, hdigit, if_neg (by nofun)]
        exact ih fun d hd => hb d (List.mem_cons_of_mem _ hd)
  unfold dimension Dimension.text
  dsimp only
  rw [List.foldl_append, hskip, List.foldl_cons, hskip]
  have hall : ∀ size : Fin 4, (if (if (digit size).isDigit then (0 : UInt32) * 10
      + UInt32.ofNat ((digit size).toNat - '0'.toNat) else 0) = 0 then (1 : UInt32)
      else if (digit size).isDigit then (0 : UInt32) * 10 + UInt32.ofNat ((digit size).toNat - '0'.toNat)
        else 0).toNat = size + 1 := by
    decide
  exact hall n.size

theorem comma_not_mem_dimension (n : Dimension) : ',' ∉ n.text := by
  unfold Dimension.text
  rw [List.mem_append, List.mem_cons]
  rintro (h | h | h)
  · exact comma_not_mem_blanks _ h
  · have hall : ∀ size : Fin 4, ',' ≠ digit size := by decide
    exact hall _ h
  · exact comma_not_mem_blanks _ h

theorem dimensions_one (n : Dimension) : (dimensions n.text).toNat = n.size + 1 := by
  rw [dimensions, Lines.split_of_unbroken _ (comma_not_mem_dimension n), List.foldl_cons, List.foldl_nil,
    UInt32.one_mul, dimension_text]

theorem dimensions_two (n m : Dimension) :
    (dimensions (n.text ++ ',' :: m.text)).toNat = (n.size + 1) * (m.size + 1) := by
  rw [dimensions, Lines.split_append_break, Lines.split_of_unbroken _ (comma_not_mem_dimension n),
    Lines.split_of_unbroken _ (comma_not_mem_dimension m), List.singleton_append, List.foldl_cons,
    List.foldl_cons, List.foldl_nil, UInt32.one_mul, UInt32.toNat_mul, dimension_text, dimension_text]
  have hle : (n.size + 1 : Nat) * (m.size + 1) ≤ 4 * 4 :=
    Nat.mul_le_mul (Nat.succ_le_of_lt n.size.isLt) (Nat.succ_le_of_lt m.size.isLt)
  exact Nat.mod_eq_of_lt (by omega)

/-! ## §5. What is read. -/

theorem bits_le (s : Scalar) : s.bits ≤ 64 := by
  cases s <;> decide

theorem bits_pos (s : Scalar) : 0 < s.bits := by
  cases s <;> decide

/-- No built-in type takes no bits, or more than 16 components of 64. -/
theorem Spelling.bits_bounds (t : Spelling) : 0 < t.bits ∧ t.bits ≤ 64 * 4 * 4 := by
  have hvector : ∀ (s : Scalar) (n : Fin 4), 0 < s.bits * (n + 1) ∧ s.bits * (n + 1) ≤ 64 * 4 := by
    intro s n
    exact ⟨Nat.mul_pos (bits_pos s) (Nat.succ_pos _), Nat.mul_le_mul (bits_le s) (Nat.succ_le_of_lt n.isLt)⟩
  have hmatrix : ∀ (s : Scalar) (n m : Fin 4), 0 < s.bits * (n + 1) * (m + 1)
      ∧ s.bits * (n + 1) * (m + 1) ≤ 64 * 4 * 4 := by
    intro s n m
    have ⟨hpos, hle⟩ := hvector s n
    exact ⟨Nat.mul_pos hpos (Nat.succ_pos _), Nat.mul_le_mul hle (Nat.succ_le_of_lt m.isLt)⟩
  cases t with
  | scalar s => exact ⟨bits_pos s, (bits_le s).trans (by decide)⟩
  | vector s n => exact ⟨(hvector s n).1, (hvector s n).2.trans (by decide)⟩
  | matrix s rows columns => exact hmatrix s rows columns
  | vectorOf _ _ s _ n => exact ⟨(hvector s n.size).1, (hvector s n.size).2.trans (by decide)⟩
  | matrixOf _ _ s _ rows columns => exact hmatrix s rows.size columns.size

theorem template_bits {word : Text} (hword : IsTemplate word) (angle before : Blanks) (s : Scalar) (behind : Blanks)
    {dims : Text} {product : Nat} (hdims : (dimensions dims).toNat = product) (hle : product ≤ 16) :
    (typeLexemeBits (word ++ (angle.text ++ '<' :: (before.text ++ s.name ++ behind.text
        ++ ',' :: (dims ++ ['>']))))).toNat
      = if angle.text = [] ∧ ∀ c ∈ before.text, isTrimmed c = true then s.bits * product else 0 := by
  unfold typeLexemeBits
  generalize hn : (word ++ (angle.text ++ '<' :: (before.text ++ s.name ++ behind.text
    ++ ',' :: (dims ++ ['>'])))).length = n
  obtain ⟨fuel, rfl⟩ : ∃ fuel, n = fuel + 1 := by
    cases n with
    | zero => simp at hn
    | succ fuel => exact ⟨fuel, rfl⟩
  cases hangle : angle.text with
  | cons c cs =>
      have hc := angle.blank c (hangle ▸ List.mem_cons_self)
      rw [if_neg (fun h => by cases h.1), List.cons_append, lexemeBits_spaced hword hc]
      rfl
  | nil =>
      have hshape : before.text ++ s.name ++ behind.text ++ ',' :: (dims ++ ['>'])
          = before.text ++ s.name ++ behind.text ++ ',' :: dims ++ ['>'] := by simp
      rw [List.nil_append, hshape, lexemeBits_template hword (comma_not_mem_scalar before s behind)]
      by_cases hread : ∀ c ∈ before.text, isTrimmed c = true
      · rw [if_pos ⟨rfl, hread⟩]
        obtain ⟨rest, htrim, hrest⟩ := trim_scalar hread s behind
        rw [htrim, UInt32.toNat_mul, lexemeBits_scalar s hrest, hdims]
        have hbound := Nat.mul_le_mul (bits_le s) hle
        exact Nat.mod_eq_of_lt (by omega)
      · rw [if_neg fun h => hread h.2]
        obtain ⟨c, more, htrim, hc⟩ := trim_blank hread (s.name ++ behind.text)
        rw [← List.append_assoc] at htrim
        rw [htrim, lexemeBits_blank hc, UInt32.zero_mul]
        rfl

/-- **The bits of a spelling**, or none. -/
theorem typeLexemeBits_text (t : Spelling) :
    (typeLexemeBits t.text).toNat = if t.Readable then t.bits else 0 := by
  cases t with
  | scalar s =>
      rw [if_pos (show (Spelling.scalar s).Readable from trivial)]
      exact (word_bits s).1
  | vector s n =>
      rw [if_pos (show (Spelling.vector s n).Readable from trivial)]
      exact (word_bits s).2.1 n
  | matrix s rows columns =>
      rw [if_pos (show (Spelling.matrix s rows columns).Readable from trivial)]
      exact (word_bits s).2.2 rows columns
  | vectorOf angle before s behind n =>
      refine (template_bits (.inl rfl) angle before s behind (dimensions_one n) ?_).trans ?_
      · have := n.size.isLt
        omega
      · exact if_congr Iff.rfl rfl rfl
  | matrixOf angle before s behind rows columns =>
      refine (template_bits (.inr rfl) angle before s behind (dimensions_two rows columns) ?_).trans ?_
      · exact Nat.mul_le_mul (Nat.succ_le_of_lt rows.size.isLt) (Nat.succ_le_of_lt columns.size.isLt)
      · exact if_congr Iff.rfl (Nat.mul_assoc ..).symm rfl

end ShaderClippy.Rules.TypeLexeme
