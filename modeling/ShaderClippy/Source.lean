/-
  ShaderClippy.Source

  **SOURCE IDS, BYTE SPANS AND SOURCE TEXT.**

  The value types of `shader_clippy/source.hpp` every other module speaks.
  Source text is a list of `Char`s, one per UTF-8 BYTE (code points 0..255):
  all offsets of the program are byte offsets, so list positions and byte
  offsets are the same thing.
-/
import Mathlib.Tactic.Tauto

namespace ShaderClippy

/-- Source text, one `Char` per byte. -/
abbrev Text := List Char

/-- `==` on texts is equality. -/
instance : LawfulBEq Text := inferInstance

/-- Opaque handle for a source file; `0` is the invalid id. -/
structure SourceId where
  value : Nat
  deriving Repr, DecidableEq

/-- Half-open `[lo, hi)` byte range. -/
structure ByteSpan where
  lo : Nat
  hi : Nat
  deriving Repr, DecidableEq

/-- A byte span paired with the source it points into. -/
structure Span where
  source : SourceId
  bytes : ByteSpan
  deriving Repr, DecidableEq

end ShaderClippy
