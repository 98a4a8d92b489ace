/-
  ShaderClippy.Lsp.Json

  **JSON VALUES, AS THE JSON LIBRARY HOLDS THEM.**

  The library itself (its parser and its writer) is not part of the
  repository. A value is what its parser delivers: integers come in two
  kinds, negative ones as signed and the others as unsigned 64-bit numbers,
  everything else is a float whose text is kept. `JsonLib` is what the
  dispatcher relies on: the parser only delivers strings in UTF-8, and the
  writer throws on a string that is not.
-/
import ShaderClippy.Source

namespace ShaderClippy.Lsp

/-! ## §1. UTF-8. -/

/-- The bounds of the bytes that must follow a byte; no overlong forms, no
surrogates, nothing beyond the last plane. -/
def continuations (c : Nat) : Option (List (Nat × Nat)) :=
  if c < 0x80 then some []
  else if 0xC2 ≤ c ∧ c ≤ 0xDF then some [(0x80, 0xBF)]
  else if 0xE0 ≤ c ∧ c ≤ 0xEF then
    some [(if c = 0xE0 then 0xA0 else 0x80, if c = 0xED then 0x9F else 0xBF), (0x80, 0xBF)]
  else if 0xF0 ≤ c ∧ c ≤ 0xF4 then
    some [(if c = 0xF0 then 0x90 else 0x80, if c = 0xF4 then 0x8F else 0xBF), (0x80, 0xBF),
      (0x80, 0xBF)]
  else none

/-- Well-formed UTF-8, when the bytes of `pending` are still to come. -/
def validUtf8From : List (Nat × Nat) → Text → Bool
  | pending, [] => pending.isEmpty
  | [], c :: cs =>
      match continuations c.toNat with
      | none => false
      | some pending => validUtf8From pending cs
  | (lo, hi) :: pending, c :: cs =>
      decide (lo ≤ c.toNat) && decide (c.toNat ≤ hi) && validUtf8From pending cs

def validUtf8 (s : Text) : Bool := validUtf8From [] s

/-- Bytes of one-byte characters only. -/
def ascii (s : Text) : Bool := s.all fun c => decide (c.toNat < 0x80)

theorem validUtf8_ascii_append {s t : Text} (hs : ascii s = true) :
    validUtf8 (s ++ t) = validUtf8 t := by
  induction s with
  | nil => rfl
  | cons c cs ih =>
      rw [ascii, List.all_cons, Bool.and_eq_true, decide_eq_true_iff] at hs
      have hc : continuations c.toNat = some [] := if_pos hs.1
      have hstep : validUtf8 (c :: (cs ++ t)) = validUtf8 (cs ++ t) := by
        rw [validUtf8, validUtf8From, hc]
        rfl
      rw [List.cons_append, hstep]
      exact ih hs.2

/-! ## §2. Values. -/

inductive Json where
  | null
  | boolean (b : Bool)
  | integer (v : Int64)
  | unsigned (v : UInt64)
  | float (text : Text)
  | string (s : Text)
  | array (items : List Json)
  | object (members : List (Text × Json))

namespace Json

def isObject : Json → Bool
  | object _ => true
  | _ => false

def isNull : Json → Bool
  | null => true
  | _ => false

/-- `find` on an object; other values have no members. -/
def find (key : Text) : Json → Option Json
  | object members => (members.find? fun m => decide (m.1 = key)).map Prod.snd
  | _ => none

mutual
/-- Every string in the value, names of members included, is UTF-8. -/
def valid : Json → Bool
  | string s => validUtf8 s
  | array items => validItems items
  | object members => validMembers members
  | _ => true

def validItems : List Json → Bool
  | [] => true
  | j :: js => valid j && validItems js

def validMembers : List (Text × Json) → Bool
  | [] => true
  | m :: ms => validUtf8 m.1 && valid m.2 && validMembers ms
end

theorem valid_of_find {j v : Json} {key : Text} (hj : j.valid = true)
    (h : j.find key = some v) : v.valid = true := by
  cases j with
  | object members =>
      have ⟨m, hm, hv⟩ := Option.map_eq_some_iff.mp h
      have hmem := List.mem_of_find?_eq_some hm
      have hall : ∀ ms : List (Text × Json), validMembers ms = true → ∀ x ∈ ms, x.2.valid = true := by
        intro ms
        induction ms with
        | nil => simp
        | cons y ys ih =>
            intro hv x hx
            rw [validMembers, Bool.and_eq_true, Bool.and_eq_true] at hv
            rcases List.mem_cons.mp hx with rfl | hx
            · exact hv.1.2
            · exact ih hv.2 x hx
      exact hv ▸ hall members (by rw [valid] at hj; exact hj) m hmem
  | _ => cases h

end Json

/-- What `parse` throws: its `parse_error`, or something else (a number out of
range). -/
inductive ParseException where
  | parseError
  | other

/-- The JSON library: `parse`, `dump` (none when it throws), and what is
documented of them. -/
structure JsonLib where
  parse : Text → Except ParseException Json
  dump : Json → Option Text
  parse_valid : ∀ text j, parse text = .ok j → j.valid = true
  dump_isSome : ∀ j, (dump j).isSome = j.valid

end ShaderClippy.Lsp
