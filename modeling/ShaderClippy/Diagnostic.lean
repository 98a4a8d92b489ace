/-
  ShaderClippy.Diagnostic

  **DIAGNOSTICS, FIXES AND TEXT EDITS** (`shader_clippy/diagnostic.hpp`).

  The payload of an edit is moved around but never inspected by the
  rewriter, so edits and fixes are written over ANY byte type `α`; the
  program's own are the ones at `α = Char`.
-/
import ShaderClippy.Source

namespace ShaderClippy

/-- Severity classes, rustc/clippy convention. -/
inductive Severity where
  | note
  | warning
  | error
  deriving Repr, DecidableEq

/-- One replacement: the bytes of `span` become `replacement`. -/
structure TextEdit (α : Type) where
  span : Span
  replacement : List α
  deriving Repr, DecidableEq

/-- A quick fix: a sequence of edits applied atomically. -/
structure Fix (α : Type) where
  description : Text
  machineApplicable : Bool
  edits : List (TextEdit α)
  deriving Repr, DecidableEq

/-- A diagnostic: stable rule code, severity, primary span, message, fixes. -/
structure Diagnostic where
  code : Text
  severity : Severity
  primarySpan : Span
  message : Text
  fixes : List (Fix Char)
  deriving Repr, DecidableEq

end ShaderClippy
