import LuaTyping.Check.Infer
import LuaTyping.Text.Quoted

/-!
# What is said about a stop

The text of a fault, and a type as it is shown at the end of a check.
-/

set_option autoImplicit false

namespace LuaTyping

/-- What is said about a fault, if anything. Showing a type may itself end in a fault. -/
def Fault.message : Fault → Naming (Option String)
  | .unmet => pure (some "")
  | .unknownType t => do
    let shown ← t.render
    return some s!"Unknown type: {shown}"
  | .notImplemented what => pure (some s!"Not implemented: {what}")
  | .outOfRange => pure (some "list index out of range")
  | .unboundName x => pure (some (Text.quoted x))
  | .noComponents | .wrongKind | .endless => pure none

end LuaTyping
