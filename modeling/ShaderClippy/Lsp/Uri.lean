/-
  ShaderClippy.Lsp.Uri

  **`file://` URIS** (`document/uri.cpp`).

  A path is written byte by byte: unreserved bytes, `/` and `:` as they are,
  any other one as `%` and two digits. The decoder reads both forms back,
  one byte of the path at a time (`percentDecode_encodeByte`), so nothing a
  path holds can be mistaken for an escape, a literal `%41` included.

  Paths and URIs are bytes. The branches for Windows are left out.
-/
import Mathlib.Data.List.Basic

namespace ShaderClippy.Lsp.Uri

abbrev Bytes := List UInt8

/-- The bytes of an ASCII text. -/
def ascii (s : String) : Bytes := s.toList.map fun c => UInt8.ofNat c.toNat

def kFileScheme : Bytes := ascii "file://"

def slash : UInt8 := 47

def percent : UInt8 := 37

/-! ## §1. Decoding. -/

/-- `hex_value`; `-1` for no digit. -/
def hexValue (c : UInt8) : Int :=
  if 48 ≤ c ∧ c ≤ 57 then (c - 48).toNat
  else if 97 ≤ c ∧ c ≤ 102 then 10 + (c - 97).toNat
  else if 65 ≤ c ∧ c ≤ 70 then 10 + (c - 65).toNat
  else -1

/-- `percent_decode`. -/
def percentDecode : Bytes → Option Bytes
  | [] => some []
  | c :: rest =>
      if c ≠ percent then (percentDecode rest).map (c :: ·)
      else
        match rest with
        | hi :: lo :: rest' =>
            if hexValue hi < 0 ∨ hexValue lo < 0 then none
            else
              let byte := UInt8.ofNat ((hexValue hi).toNat <<< 4 ||| (hexValue lo).toNat)
              (percentDecode rest').map (byte :: ·)
        | _ => none

/-- `uri_to_path`. -/
def uriToPath (uri : Bytes) : Option Bytes :=
  if kFileScheme.isPrefixOf uri then percentDecode (uri.drop kFileScheme.length) else none

/-! ## §2. Encoding. -/

/-- `is_unreserved`. -/
def isUnreserved (c : UInt8) : Bool :=
  (65 ≤ c && c ≤ 90) || (97 ≤ c && c ≤ 122) || (48 ≤ c && c ≤ 57)
    || c == 45 || c == 95 || c == 46 || c == 126

def kHex : Bytes := ascii "0123456789ABCDEF"

/-- The bytes that are written as they are. -/
def isPlain (uc : UInt8) : Bool := isUnreserved uc || uc == slash || uc == 58

/-- One turn of the loop in `path_to_uri`. -/
def encodeByte (uc : UInt8) : Bytes :=
  if isPlain uc then [uc]
  else [percent, kHex.getD ((uc >>> 4) &&& 15).toNat 0, kHex.getD (uc &&& 15).toNat 0]

/-- `path::generic_string()`: where `/` is the native separator the generic
form of a path is the path (libc++, which the builds link, returns its text). -/
def genericString (path : Bytes) : Bytes := path

/-- A path without a leading slash is given one. -/
def rooted (raw : Bytes) : Bytes := if raw.head? = some slash then raw else slash :: raw

/-- `path_to_uri`. -/
def pathToUri (path : Bytes) : Bytes :=
  kFileScheme ++ (rooted (genericString path)).flatMap encodeByte

/-! ## §3. One byte. -/

theorem percentDecode_plain {c : UInt8} (h : c ≠ percent) (rest : Bytes) :
    percentDecode (c :: rest) = (percentDecode rest).map (c :: ·) := by
  rw [percentDecode.eq_def]
  exact if_pos h

theorem percentDecode_escape {hi lo : UInt8} (hhi : 0 ≤ hexValue hi) (hlo : 0 ≤ hexValue lo)
    (rest : Bytes) :
    percentDecode (percent :: hi :: lo :: rest)
      = (percentDecode rest).map
          (UInt8.ofNat ((hexValue hi).toNat <<< 4 ||| (hexValue lo).toNat) :: ·) := by
  have hdigits : ¬ (hexValue hi < 0 ∨ hexValue lo < 0) := by omega
  rw [percentDecode.eq_def]
  exact (if_neg (not_not.mpr rfl)).trans (if_neg hdigits)

/-- The digits have their values. -/
theorem hexValue_kHex {n : Nat} (h : n < 16) : hexValue (kHex.getD n 0) = n := by
  have hall : ∀ n < 16, hexValue (kHex.getD n 0) = (n : Int) := by decide
  exact hall n h

/-- A byte is its two halves. -/
theorem joined_halves (c : UInt8) :
    UInt8.ofNat (((c >>> 4) &&& 15).toNat <<< 4 ||| (c &&& 15).toNat) = c := by
  have hsmall : c.toNat < 256 := c.toNat_lt
  have hlow : (c &&& 15).toNat = c.toNat % 2 ^ 4 := by
    rw [UInt8.toNat_and]
    exact Nat.and_two_pow_sub_one_eq_mod c.toNat 4
  have hhigh : ((c >>> 4) &&& 15).toNat = c.toNat / 2 ^ 4 := by
    rw [UInt8.toNat_and, UInt8.toNat_shiftRight]
    have hmask := Nat.and_two_pow_sub_one_eq_mod (c.toNat >>> 4) 4
    have hshift : c.toNat >>> 4 = c.toNat / 2 ^ 4 := Nat.shiftRight_eq_div_pow c.toNat 4
    exact hmask.trans (by rw [hshift]; exact Nat.mod_eq_of_lt (by omega))
  have hlt : c.toNat % 2 ^ 4 < 2 ^ 4 := Nat.mod_lt _ (by decide)
  rw [hlow, hhigh, ← Nat.shiftLeft_add_eq_or_of_lt hlt, Nat.shiftLeft_eq, Nat.div_add_mod',
    UInt8.ofNat_toNat]

/-- **One byte is read back**, whatever follows. -/
theorem percentDecode_encodeByte (c : UInt8) (rest : Bytes) :
    percentDecode (encodeByte c ++ rest) = (percentDecode rest).map (c :: ·) := by
  unfold encodeByte
  split
  next hplain =>
      have hne : c ≠ percent := by
        rintro rfl
        exact absurd hplain (by decide)
      exact percentDecode_plain hne rest
  next =>
      have hhi : ((c >>> 4) &&& 15).toNat < 16 := by
        rw [UInt8.toNat_and]
        exact Nat.lt_of_le_of_lt Nat.and_le_right (by decide)
      have hlo : (c &&& 15).toNat < 16 := by
        rw [UInt8.toNat_and]
        exact Nat.lt_of_le_of_lt Nat.and_le_right (by decide)
      show percentDecode (percent :: _ :: _ :: rest) = _
      rw [percentDecode_escape (by rw [hexValue_kHex hhi]; omega) (by rw [hexValue_kHex hlo]; omega),
        hexValue_kHex hhi, hexValue_kHex hlo, Int.toNat_natCast, Int.toNat_natCast, joined_halves]

/-! ## §4. Paths. -/

theorem percentDecode_flatMap (raw : Bytes) : percentDecode (raw.flatMap encodeByte) = some raw := by
  induction raw with
  | nil => rfl
  | cons c cs ih =>
      rw [List.flatMap_cons, percentDecode_encodeByte, ih]
      rfl

theorem uriToPath_scheme (s : Bytes) : uriToPath (kFileScheme ++ s) = percentDecode s := by
  have hprefix : kFileScheme.isPrefixOf (kFileScheme ++ s) = true :=
    List.isPrefixOf_iff_prefix.mpr (List.prefix_append _ _)
  rw [uriToPath, if_pos hprefix, List.drop_left]

/-- What comes back is what was written: the generic form, with a slash in
front of a relative path. -/
theorem uriToPath_pathToUri_rooted (path : Bytes) :
    uriToPath (pathToUri path) = some (rooted (genericString path)) := by
  rw [pathToUri, uriToPath_scheme, percentDecode_flatMap]

/-- **Every absolute path comes back**, byte for byte. -/
theorem uriToPath_pathToUri (path : Bytes) (habsolute : path.head? = some slash) :
    uriToPath (pathToUri path) = some path := by
  have hrooted : rooted (genericString path) = path := if_pos habsolute
  rw [uriToPath_pathToUri_rooted, hrooted]

/-- `/a%41 é`: what looks like an escape, a space and two bytes of UTF-8. -/
theorem uriToPath_pathToUri_escapes :
    let path : Bytes := ascii "/a%41 " ++ [195, 169]
    pathToUri path = ascii "file:///a%2541%20%C3%A9" ∧ uriToPath (pathToUri path) = some path :=
  ⟨by decide, uriToPath_pathToUri _ (by decide)⟩

end ShaderClippy.Lsp.Uri
