/-! The rules of the linter and what is known about each of them. -/

namespace CultureLint

/-- How bad a finding is, from the mildest on. -/
inductive Severity
  | hidden
  | info
  | warning
  | error
deriving DecidableEq, Repr

namespace Severity

def all : List Severity := [.hidden, .info, .warning, .error]

def name : Severity → String
  | .hidden => "hidden"
  | .info => "info"
  | .warning => "warning"
  | .error => "error"

end Severity

inductive Rule
  | stringConcatConversion
deriving DecidableEq, Repr

/-- What is shown about a rule. In the format of its messages `{0}`, `{1}` and so on are places. -/
structure RuleDescriptor where
  title : String
  messageFormat : String
  category : String
  severity : Severity
  enabledByDefault : Bool
  description : String
  fixTitle : Option String
deriving DecidableEq, Repr

namespace Rule

def all : List Rule := [.stringConcatConversion]

def name : Rule → String
  | .stringConcatConversion => "StringConcatConversion"

/-- The short name of a rule: the capital letters of its name. -/
def code (rule : Rule) : String := String.ofList (rule.name.toList.filter Char.isUpper)

def ofCode? (code : String) : Option Rule := all.find? (·.code == code)

def descriptor : Rule → RuleDescriptor
  | .stringConcatConversion =>
    { title := "Culture-sensitive conversion in string concatenation"
      messageFormat := "Call method '\x7b0\x7d' on type '\x7b1\x7d'."
      category := "Globalization"
      severity := .warning
      enabledByDefault := true
      description := "Concatenating a value with a string converts it with the " ++
        "current culture. Call ToString with an explicit format provider instead."
      fixTitle := some "Call ToString(CultureInfo.InvariantCulture)" }

/-- Whether findings of the rule can be mended. -/
def hasFix (rule : Rule) : Bool := rule.descriptor.fixTitle.isSome

/-- The rules that run when nothing else is asked for. -/
def defaults : List Rule := all.filter (·.descriptor.enabledByDefault)

end Rule

/-- A choice of rules: all of them, or one. -/
inductive RuleSelector
  | all
  | one (rule : Rule)
deriving DecidableEq, Repr

namespace RuleSelector

def rules : RuleSelector → List Rule
  | .all => Rule.all
  | .one rule => [rule]

/-- The choice that a word makes. -/
def ofWord? (word : String) : Option RuleSelector :=
  if word = "ALL" then some .all else (Rule.ofCode? word).map .one

/-- What is said about a word that makes no choice. -/
def unknownMessage (word : String) : String := "Unknown rule code: " ++ word

end RuleSelector

/-- The rules to run: those selected, or else the defaults, without those ignored. -/
def Rule.selected (select ignore : Option (List RuleSelector)) : List Rule :=
  let wanted :=
    match select with
    | some selectors => (selectors.flatMap RuleSelector.rules).eraseDups
    | none => Rule.defaults
  let unwanted := (ignore.getD []).flatMap RuleSelector.rules
  wanted.filter fun rule => !unwanted.contains rule

end CultureLint
