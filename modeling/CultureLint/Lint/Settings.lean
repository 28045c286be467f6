import CultureLint.Rule.Basic
import CultureLint.Symbol.Library

/-! What a run looks at. -/

namespace CultureLint

/-- The rules to run, whether generated code is looked at, and the libraries to compile against. -/
structure Settings where
  rules : List Rule := Rule.defaults
  includeGenerated : Bool := false
  references : List Reference := [.core, .globalization]
deriving DecidableEq, Repr

end CultureLint
