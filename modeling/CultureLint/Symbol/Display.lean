import CultureLint.Symbol.Compilation

/-! How messages write types and members: by the language's own word where there is one, and else with
the namespace. -/

namespace CultureLint.Compilation

variable (c : Compilation)

def displayTypeUpTo : Nat → TypeId → String
  | 0, _ => ""
  | bound + 1, id =>
    let symbol := c.symbol id
    match symbol.kind with
    | .array element => displayTypeUpTo bound element ++ "[]"
    | .nullable underlying => displayTypeUpTo bound underlying ++ "?"
    | .classType | .structType | .interfaceType =>
      (symbol.special.bind SpecialType.keyword?).getD symbol.metadataName

/-- A type as messages write it. A type is built only from types that were there before it. -/
def displayType (id : TypeId) : String := c.displayTypeUpTo (c.types.size + 1) id

/-- A method with its type and the types of its parameters. -/
def displayMethod (m : MethodSymbol) : String :=
  let parameters := m.parameters.map fun p => p.type.elim "?" c.displayType
  c.displayType m.containing ++ "." ++ m.name ++ "(" ++ ", ".intercalate parameters ++ ")"

end CultureLint.Compilation
