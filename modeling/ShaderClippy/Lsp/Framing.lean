/-
  ShaderClippy.Lsp.Framing

  **THE BASE PROTOCOL'S FRAMES** (`rpc/framing.cpp`, the read loop of
  `main.cpp`).

  A stream is the bytes still to come. `readMessage` takes header bytes one
  by one up to the first CR LF CR LF, reads `Content-Length` from them and
  takes that many bytes of body; every error says what is left of the stream
  too, because the read loop goes on from there.
-/
import Mathlib
import ShaderClippy.Source

namespace ShaderClippy.Lsp.Framing

/-! ## §1. Header fields. -/

def crlf : Text := ['\r', '\n']

def headerTerminator : Text := ['\r', '\n', '\r', '\n']

/-- The name a header field is compared with. -/
def contentLength : Text :=
  ['C', 'o', 'n', 't', 'e', 'n', 't', '-', 'L', 'e', 'n', 'g', 't', 'h']

def isBlank (c : Char) : Bool := c == ' ' || c == '\t'

/-- `trim`: blanks off both ends. -/
def trim (s : Text) : Text := (s.dropWhile isBlank).rdropWhile isBlank

/-- `ascii_iequals`. -/
def asciiIequals (a b : Text) : Bool := a.map Char.toLower == b.map Char.toLower

/-- `std::from_chars` into 32 bits, over a whole text: digits only, at least
one, and no overflow. -/
def fromChars (value : Text) : Option Nat :=
  if value.isEmpty || !value.all Char.isDigit then none
  else
    let n := Nat.ofDigitChars 10 value 0
    if n < 2 ^ 32 then some n else none

/-- The text up to the next CR LF, and the text after it. -/
def cutLine : Text → Text × Text
  | [] => ([], [])
  | '\r' :: '\n' :: rest => ([], rest)
  | c :: cs => (c :: (cutLine cs).1, (cutLine cs).2)

/-- One line of `parse_content_length`: the length found so far after it,
`none` when the header block is malformed. -/
def parseField (length : Option Nat) (line : Text) : Option (Option Nat) :=
  if line.isEmpty then some length
  else if !line.contains ':' then none
  else
    let name := trim (line.takeWhile (· != ':'))
    let value := trim ((line.dropWhile (· != ':')).drop 1)
    if asciiIequals name contentLength then (fromChars value).map some else some length

/-- The loop of `parse_content_length`. -/
def parseFields : Nat → Option Nat → Text → Option Nat
  | 0, _, _ => none
  | fuel + 1, length, headers =>
      if headers.isEmpty then length
      else
        match parseField length (cutLine headers).1 with
        | none => none
        | some length => parseFields fuel length (cutLine headers).2

/-- `parse_content_length`. -/
def parseContentLength (headers : Text) : Option Nat :=
  parseFields (headers.length + 1) none headers

/-! ## §2. Reading and writing frames. -/

inductive FramingStatus where
  | ok
  | endOfStream
  | headerError
  | bodyTruncated
  deriving Repr, DecidableEq

structure ReadResult where
  status : FramingStatus
  body : Text
  deriving Repr, DecidableEq

def maxHeaderBytes : Nat := 65536

def maxBodyBytes : Nat := 16 * 1024 * 1024

/-- How the byte-by-byte scan for the header terminator ends. -/
inductive HeaderScan where
  | found (headers rest : Text)
  | streamEnded (headers : Text)
  | tooLong (rest : Text)
  deriving Repr, DecidableEq

/-- The header loop of `read_message`. -/
def scanHeader : Text → Text → HeaderScan
  | headers, [] => .streamEnded headers
  | headers, byte :: rest =>
      if headerTerminator.isSuffixOf (headers ++ [byte]) then .found (headers ++ [byte]) rest
      else if (headers ++ [byte]).length > maxHeaderBytes then .tooLong rest
      else scanHeader (headers ++ [byte]) rest

/-- `read_message`: the result, and the stream behind it. -/
def readMessage (stream : Text) : ReadResult × Text :=
  match scanHeader [] stream with
  | .streamEnded headers =>
      if headers.isEmpty then (⟨.endOfStream, []⟩, []) else (⟨.headerError, []⟩, [])
  | .tooLong rest => (⟨.headerError, []⟩, rest)
  | .found headers rest =>
      match parseContentLength (headers.take (headers.length - headerTerminator.length)) with
      | none => (⟨.headerError, []⟩, rest)
      | some length =>
          if length > maxBodyBytes then (⟨.headerError, []⟩, rest)
          else if rest.length < length then (⟨.bodyTruncated, rest⟩, [])
          else (⟨.ok, rest.take length⟩, rest.drop length)

/-- The read loop: results up to the end of the stream. -/
def readLoop : Nat → Text → List ReadResult
  | 0, _ => []
  | fuel + 1, stream =>
      let r := readMessage stream
      if r.1.status = .endOfStream then [r.1] else r.1 :: readLoop fuel r.2

/-- The header of a frame. -/
def frameHeader (size : Nat) : Text :=
  contentLength ++ [':', ' '] ++ Nat.toDigits 10 size ++ crlf ++ crlf

/-- `frame_message`. -/
def frameMessage (body : Text) : Text := frameHeader body.length ++ body

/-! ## §3. Header blocks. -/

/-- A block that the header scan takes as a whole: it ends with the
terminator, no shorter part of it does, and it is not too long. -/
structure HeaderBlock (block : Text) : Prop where
  ends : headerTerminator <:+ block
  first : ∀ p, p <+: block → p ≠ block → ¬ headerTerminator <:+ p
  short : block.length ≤ maxHeaderBytes + 1

/-- A stretch without a terminator that is one byte too long for a header. -/
structure Overlong (stretch : Text) : Prop where
  open_ : ∀ p, p <+: stretch → ¬ headerTerminator <:+ p
  long : stretch.length = maxHeaderBytes + 1

/-- What a header block says, without its terminator. -/
def declaredLength (block : Text) : Option Nat :=
  parseContentLength (block.take (block.length - headerTerminator.length))

theorem scanHeader_block (block rest : Text) :
    ∀ (seen more : Text), block = seen ++ more → more ≠ [] → HeaderBlock block →
      scanHeader seen (more ++ rest) = .found block rest := by
  intro seen more
  induction more generalizing seen with
  | nil =>
      intro _ hne _
      exact absurd rfl hne
  | cons c cs ih =>
      intro hsplit _ hblock
      have hsplit' : block = (seen ++ [c]) ++ cs := by rw [hsplit]; simp
      rw [List.cons_append, scanHeader]
      cases cs with
      | nil =>
          -- the last byte completes the terminator
          have hfull : seen ++ [c] = block := by simpa using hsplit'.symm
          have hends : headerTerminator.isSuffixOf (seen ++ [c]) = true := by
            rw [List.isSuffixOf_iff_suffix, hfull]
            exact hblock.ends
          rw [if_pos hends, hfull]
          rfl
      | cons d ds =>
          have hproper : seen ++ [c] ≠ block := by
            intro h
            rw [h] at hsplit'
            simpa using congrArg List.length hsplit'
          have hopen : ¬ headerTerminator.isSuffixOf (seen ++ [c]) = true := by
            rw [List.isSuffixOf_iff_suffix]
            exact hblock.first _ ⟨d :: ds, hsplit'.symm⟩ hproper
          have hshort : ¬ (seen ++ [c]).length > maxHeaderBytes := by
            have hlen := hblock.short
            rw [hsplit'] at hlen
            simp only [List.length_append, List.length_cons, List.length_nil] at hlen ⊢
            omega
          rw [if_neg hopen, if_neg hshort]
          exact ih (seen ++ [c]) hsplit' (by simp) hblock

theorem scanHeader_overlong (stretch rest : Text) :
    ∀ (seen more : Text), stretch = seen ++ more → more ≠ [] → Overlong stretch →
      scanHeader seen (more ++ rest) = .tooLong rest := by
  intro seen more
  induction more generalizing seen with
  | nil =>
      intro _ hne _
      exact absurd rfl hne
  | cons c cs ih =>
      intro hsplit _ hover
      have hsplit' : stretch = (seen ++ [c]) ++ cs := by rw [hsplit]; simp
      have hopen : ¬ headerTerminator.isSuffixOf (seen ++ [c]) = true := by
        rw [List.isSuffixOf_iff_suffix]
        exact hover.open_ _ ⟨cs, hsplit'.symm⟩
      have hlen := hover.long
      rw [hsplit', List.length_append] at hlen
      rw [List.cons_append, scanHeader, if_neg hopen]
      cases cs with
      | nil =>
          have hlong : (seen ++ [c]).length > maxHeaderBytes := by
            rw [List.length_nil] at hlen
            omega
          rw [if_pos hlong]
          rfl
      | cons d ds =>
          have hshort : ¬ (seen ++ [c]).length > maxHeaderBytes := by
            rw [List.length_cons] at hlen
            omega
          rw [if_neg hshort]
          exact ih (seen ++ [c]) hsplit' (by simp) hover

/-- What the scan can find, said of the bytes it has taken. -/
theorem scanHeader_spec :
    ∀ (more seen : Text), (∀ p, p <+: seen → ¬ headerTerminator <:+ p) →
      seen.length ≤ maxHeaderBytes →
      match scanHeader seen more with
      | .found headers rest => seen ++ more = headers ++ rest ∧ HeaderBlock headers
      | .tooLong rest => ∃ stretch, seen ++ more = stretch ++ rest ∧ Overlong stretch
      | .streamEnded headers => headers = seen ++ more := by
  intro more
  induction more with
  | nil =>
      intro seen _ _
      simp [scanHeader]
  | cons c cs ih =>
      intro seen hopen hshort
      -- a part of the longer text is the whole of it or a part of what was seen
      have hparts : ∀ p, p <+: seen ++ [c] → p = seen ++ [c] ∨ p <+: seen := by
        intro p hp
        rcases List.prefix_concat_iff.mp hp with h | h
        · exact Or.inl h
        · exact Or.inr h
      have hcons : seen ++ c :: cs = (seen ++ [c]) ++ cs := by simp
      rw [scanHeader]
      by_cases hends : headerTerminator.isSuffixOf (seen ++ [c]) = true
      · rw [if_pos hends]
        refine ⟨hcons, List.isSuffixOf_iff_suffix.mp hends, ?_, ?_⟩
        · intro p hp hne
          rcases hparts p hp with h | h
          · exact absurd h hne
          · exact hopen p h
        · rw [List.length_append, List.length_singleton]
          omega
      · rw [if_neg hends]
        have hopen' : ∀ p, p <+: seen ++ [c] → ¬ headerTerminator <:+ p := by
          intro p hp
          rcases hparts p hp with h | h
          · rw [h, ← List.isSuffixOf_iff_suffix]
            exact hends
          · exact hopen p h
        by_cases hlong : (seen ++ [c]).length > maxHeaderBytes
        · rw [if_pos hlong]
          refine ⟨seen ++ [c], hcons, hopen', ?_⟩
          rw [List.length_append, List.length_singleton] at hlong ⊢
          omega
        · rw [if_neg hlong, hcons]
          exact ih (seen ++ [c]) hopen' (Nat.not_lt.mp hlong)

/-! ## §4. What one read does. -/

/-- A block that declares no length, or one over the cap, is an error. -/
theorem readMessage_rejected {block : Text} (rest : Text) (hblock : HeaderBlock block)
    (hlen : ∀ n, declaredLength block = some n → maxBodyBytes < n) :
    readMessage (block ++ rest) = (⟨.headerError, []⟩, rest) := by
  have hne : block ≠ [] := by
    intro h
    have := hblock.ends.length_le
    rw [h] at this
    simp [headerTerminator] at this
  rw [readMessage, scanHeader_block block rest [] block rfl hne hblock]
  show (match declaredLength block with
    | none => _
    | some length => _) = _
  cases hd : declaredLength block with
  | none => rfl
  | some n => exact if_pos (hlen n hd)

/-- A block that declares an acceptable length, and its body. -/
theorem readMessage_ok {block body : Text} (rest : Text) (hblock : HeaderBlock block)
    (hlen : declaredLength block = some body.length) (hcap : body.length ≤ maxBodyBytes) :
    readMessage (block ++ (body ++ rest)) = (⟨.ok, body⟩, rest) := by
  have hne : block ≠ [] := by
    intro h
    have := hblock.ends.length_le
    rw [h] at this
    simp [headerTerminator] at this
  have hfits : ¬ (body ++ rest).length < body.length := by
    rw [List.length_append]
    omega
  rw [readMessage, scanHeader_block block (body ++ rest) [] block rfl hne hblock]
  show (match declaredLength block with
    | none => _
    | some length => _) = _
  rw [hlen]
  show (if body.length > maxBodyBytes then _
    else if (body ++ rest).length < body.length then _
    else ((⟨.ok, (body ++ rest).take body.length⟩, (body ++ rest).drop body.length) :
      ReadResult × Text)) = _
  rw [if_neg (Nat.not_lt.mpr hcap), if_neg hfits, List.take_left, List.drop_left]

theorem readMessage_overlong {stretch rest : Text} (hover : Overlong stretch) :
    readMessage (stretch ++ rest) = (⟨.headerError, []⟩, rest) := by
  have hne : stretch ≠ [] := by
    intro h
    have := hover.long
    rw [h] at this
    cases this
  rw [readMessage, scanHeader_overlong stretch rest [] stretch rfl hne hover]

/-! ## §5. The frames the server writes. -/

theorem digit_ne {c : Char} {n : Nat} (h : c ∈ Nat.toDigits 10 n) :
    c ≠ '\r' ∧ c ≠ '\n' ∧ c ≠ ':' ∧ isBlank c = false := by
  have hd : c.isDigit = true := Nat.isDigit_of_mem_toDigits (by omega) (by omega) h
  have hne : ∀ d : Char, d.isDigit = false → c ≠ d := by
    intro d hdd heq
    rw [heq, hdd] at hd
    cases hd
  refine ⟨hne _ (by decide), hne _ (by decide), hne _ (by decide), ?_⟩
  have h1 := hne ' ' (by decide)
  have h2 := hne '\t' (by decide)
  simp [isBlank, h1, h2]

/-- The line of a frame header, without its line end. -/
def frameField (size : Nat) : Text := contentLength ++ [':', ' '] ++ Nat.toDigits 10 size

theorem frameHeader_eq (size : Nat) : frameHeader size = frameField size ++ headerTerminator := by
  simp [frameHeader, frameField, crlf, headerTerminator]

theorem frameField_unbroken (size : Nat) : '\r' ∉ frameField size ∧ '\n' ∉ frameField size := by
  have hlit : '\r' ∉ contentLength ++ [':', ' '] ∧ '\n' ∉ contentLength ++ [':', ' '] := by decide
  have hdigits : '\r' ∉ Nat.toDigits 10 size ∧ '\n' ∉ Nat.toDigits 10 size :=
    ⟨fun h => (digit_ne h).1 rfl, fun h => (digit_ne h).2.1 rfl⟩
  rw [frameField]
  exact ⟨fun h => (List.mem_append.mp h).elim hlit.1 hdigits.1,
    fun h => (List.mem_append.mp h).elim hlit.2 hdigits.2⟩

theorem cutLine_unbroken {s : Text} (h : '\r' ∉ s) : cutLine s = (s, []) := by
  induction s with
  | nil => rfl
  | cons c cs ih =>
      rw [List.mem_cons, not_or] at h
      have htail := ih h.2
      have hstep : cutLine (c :: cs) = (c :: (cutLine cs).1, (cutLine cs).2) := by
        rw [cutLine]
        intro rest hc
        exact absurd hc.symm h.1
      rw [hstep, htail]

theorem fromChars_toDigits {n : Nat} (h : n < 2 ^ 32) : fromChars (Nat.toDigits 10 n) = some n := by
  have hall : (Nat.toDigits 10 n).all Char.isDigit = true := by
    rw [List.all_eq_true]
    intro c hc
    exact Nat.isDigit_of_mem_toDigits (by omega) (by omega) hc
  have hne : (Nat.toDigits 10 n).isEmpty = false := by
    rw [List.isEmpty_eq_false_iff]
    exact Nat.toDigits_ne_nil
  simp only [fromChars, hall, hne, Nat.ofDigitChars_ten_toDigits, Bool.not_true, Bool.or_self,
    Bool.false_eq_true, if_false, if_pos h]

theorem trim_toDigits (n : Nat) : trim (' ' :: Nat.toDigits 10 n) = Nat.toDigits 10 n := by
  have hfront : (Nat.toDigits 10 n).dropWhile isBlank = Nat.toDigits 10 n := by
    cases hd : Nat.toDigits 10 n with
    | nil => rfl
    | cons c cs =>
        have hc := (digit_ne (c := c) (n := n) (by rw [hd]; exact List.mem_cons_self ..)).2.2.2
        rw [List.dropWhile_cons_of_neg (by simp [hc])]
  have hback : (Nat.toDigits 10 n).rdropWhile isBlank = Nat.toDigits 10 n := by
    rw [List.rdropWhile_eq_self_iff]
    intro hl
    have hc := (digit_ne (List.getLast_mem hl)).2.2.2
    simp [hc]
  rw [trim, List.dropWhile_cons_of_pos (by decide), hfront, hback]

/-- **The length a frame declares is its body's.** -/
theorem declaredLength_frameHeader {size : Nat} (h : size < 2 ^ 32) :
    declaredLength (frameHeader size) = some size := by
  have htake : (frameHeader size).take ((frameHeader size).length - headerTerminator.length)
      = frameField size := by
    rw [frameHeader_eq, List.length_append, Nat.add_sub_cancel, List.take_left]
  have hcolons : ∀ c ∈ contentLength, (c != ':') = true := List.all_eq_true.mp rfl
  have hname : (frameField size).takeWhile (· != ':') = contentLength := by
    rw [frameField, List.append_assoc, List.takeWhile_append_of_pos hcolons]
    simp
  have hvalue : ((frameField size).dropWhile (· != ':')).drop 1 = ' ' :: Nat.toDigits 10 size := by
    rw [frameField, List.append_assoc, List.dropWhile_append_of_pos hcolons]
    simp
  have hcolon : (frameField size).contains ':' = true := by simp [frameField]
  have hne : (frameField size).isEmpty = false := by simp [frameField, contentLength]
  have hfield : parseField none (frameField size) = some (some size) := by
    simp only [parseField, hne, hcolon, hname, hvalue, trim_toDigits, fromChars_toDigits h,
      Bool.not_true, Bool.false_eq_true, if_false]
    rfl
  have hcut := cutLine_unbroken (frameField_unbroken size).1
  rw [declaredLength, htake, parseContentLength, parseFields, hne]
  simp only [Bool.false_eq_true, if_false, hcut, hfield]
  have hlong : ∃ k, (frameField size).length = k + 1 := by
    cases hf : frameField size with
    | nil => simp [hf] at hne
    | cons c cs => exact ⟨cs.length, rfl⟩
  have ⟨k, hk⟩ := hlong
  rw [hk]
  rfl

theorem suffix_getLast {p : Text} (h : headerTerminator <:+ p) :
    ∃ q, p = q ++ ['\r', '\n', '\r', '\n'] := by
  have ⟨q, hq⟩ := h
  exact ⟨q, hq.symm⟩

/-- **A frame's header is a header block**, also behind lines that hold no
terminator. -/
theorem headerBlock_frameHeader (size : Nat) (h : size < 2 ^ 32) :
    HeaderBlock (frameHeader size) := by
  have hun := frameField_unbroken size
  refine ⟨?_, ?_, ?_⟩
  · rw [frameHeader_eq]
    exact List.suffix_append _ _
  · intro p hp hne hsuf
    have ⟨q, hq⟩ := suffix_getLast hsuf
    have ⟨r, hr⟩ := hp
    rw [frameHeader_eq, hq, headerTerminator, List.append_assoc] at hr
    -- the first CR of the block is the terminator's own
    rcases List.append_eq_append_iff.mp hr with ⟨a, ha, hb⟩ | ⟨a, ha, hb⟩
    · -- `q` is a part of the field: what follows it begins with a CR
      cases a with
      | nil =>
          simp only [List.nil_append, List.append_nil] at ha hb
          have hrnil : r = [] := by simpa using hb
          apply hne
          rw [frameHeader_eq, hq, headerTerminator, ha]
      | cons c cs =>
          have hc : c = '\r' := by simpa using (List.cons.inj hb).1.symm
          exact hun.1 (by rw [ha, hc]; simp)
    · -- `q` reaches into the terminator: too little of it is left
      have hlen := congrArg List.length hb
      simp only [List.length_append, List.length_cons, List.length_nil] at hlen
      have ha0 : a = [] := List.length_eq_zero_iff.mp (by omega)
      subst ha0
      rw [List.append_nil] at ha
      apply hne
      rw [frameHeader_eq, hq, headerTerminator, ha]
  · have hdig : (Nat.toDigits 10 size).length ≤ 10 :=
      (Nat.length_toDigits_le_iff (by omega) (by omega)).mpr (by omega)
    rw [frameHeader_eq]
    simp only [frameField, contentLength, headerTerminator, maxHeaderBytes, List.length_append,
      List.length_cons, List.length_nil]
    omega

/-- **One frame is read back**, and the stream stands behind it. -/
theorem readMessage_frame {body : Text} (rest : Text) (hcap : body.length ≤ maxBodyBytes) :
    readMessage (frameMessage body ++ rest) = (⟨.ok, body⟩, rest) := by
  have hsize : body.length < 2 ^ 32 := by
    rw [maxBodyBytes] at hcap
    omega
  rw [frameMessage, List.append_assoc]
  exact readMessage_ok rest (headerBlock_frameHeader _ hsize) (declaredLength_frameHeader hsize) hcap

end ShaderClippy.Lsp.Framing
