/-
  ShaderClippy.Rules.NodeFix

  **FIXES THAT REPLACE ONE NODE.**

  A rule looks at one node of the tree and, when it fires, attaches a fix with a
  single edit: the bytes of the node become another text.
-/
import ShaderClippy.Diagnostic
import ShaderClippy.Hlsl.Seams

namespace ShaderClippy.Rules

open Hlsl

/-- The fix that puts a text in the place of a node. -/
def nodeFix (source : SourceId) (c : Ctx) (node : Expr) (description : Text)
    (machineApplicable : Bool) (replacement : Text) : Fix Char :=
  ⟨description, machineApplicable, [⟨⟨source, byteRange c node⟩, replacement⟩]⟩

/-- Apply the edits of a fix. -/
def applyFix (s : Text) (f : Fix Char) : Text :=
  f.edits.foldl
    (fun s e => Splice.splice s ⟨e.span.bytes.lo, e.span.bytes.hi, e.replacement⟩) s

@[simp] theorem applyFix_nodeFix (s : Text) (source : SourceId) (c : Ctx) (node : Expr)
    (description : Text) (machineApplicable : Bool) (replacement : Text) :
    applyFix s (nodeFix source c node description machineApplicable replacement)
      = replaceNode s c node replacement := rfl

/-- A node of a tree that was read is a part of it. -/
theorem part_of_parse {isType : Text → Bool} {s : Text} {c : Ctx} {e : Expr}
    (h : parseText isType s = some (c.plug e)) :
    c.WellFormed isType ∧ Part isType e ∧ Munch.LexOK rules c.after := by
  have ⟨hwf, hok, _⟩ := parseText_iff.mp h
  have ⟨hc, he, _⟩ := (Ctx.wellFormed_plug isType c e).mp hwf
  have ⟨_, heok, hafter, _⟩ := lexOK_plug.mp hok
  exact ⟨hc, ⟨he, heok⟩, hafter⟩

end ShaderClippy.Rules
