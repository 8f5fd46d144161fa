import LispNamespace.Session.Rewrite

/-!
# References

A symbol that refers to a variable or a function of the namespace is qualified. One that begins with
the protection marker only loses the marker, and any other symbol stays as it is.
-/

namespace LispNamespace.Forms

/-- The name that a reference to a variable becomes. -/
def variableReference (s : Session) (name : Text) : Text :=
  if s.isEscaped name then s.stripProtection name
  else if s.isVariable name then s.qualified name
  else name

/-- The name that a reference to a function becomes. -/
def functionReference (s : Session) (name : Text) : Text :=
  if s.isEscaped name then s.stripProtection name
  else if s.isFunction name then s.qualified name
  else name

/-- Rewrites a symbol where a function is referred to; other trees stay as they are. -/
def convertFunctionName (t : Tree) : Rewrite Tree := do
  match t with
  | .sym name => return .sym (functionReference (← get) name)
  | t => return t

end LispNamespace.Forms
