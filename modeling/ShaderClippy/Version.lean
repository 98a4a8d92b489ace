/-
  ShaderClippy.Version

  **THE VERSION** (`version.cpp`), which both programs print.
-/
import ShaderClippy.Source

namespace ShaderClippy

/-- `version`. -/
def version : Text := "2.0.4".toList

end ShaderClippy
