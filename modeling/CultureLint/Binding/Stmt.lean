import CultureLint.Binding.Expr
import CultureLint.Tree.Decl

/-! Binding of statements. -/

namespace CultureLint

/-- The span of a variable and its initial value. -/
def Declarator.span (d : Declarator) : Span :=
  match d.value with
  | some value => d.name.span.cover value.span
  | none => d.name.span

/-- Binds one declared local of a written type, and then makes it known. With `var` its type is that
of its value. -/
def Declarator.bindLocal (d : Declarator) (isImplicit : Bool) (declared : Option TypeId) :
    Bind OperationId := do
  let (value, type) ←
    match d.value with
    | none => pure (none, declared)
    | some value => do
      if isImplicit then
        let op ← value.bindValue
        pure (some op, ← Bind.typeOf op)
      else pure (some (← value.bindConverted declared), declared)
  Bind.declareLocal d.name.name type
  Bind.add ⟨.variableDeclaration d.name.name value, type, d.span.origin, false, none⟩

namespace Stmt

/-- Binds a local declaration. Several variables make a block that nobody wrote. -/
def bindLocals (type : TypeExpr) (declarators : List Declarator) (span : Span) :
    Bind OperationId := do
  let declared ← Bind.resolveType type
  let isImplicit := match type with
    | .implicit _ => true
    | _ => false
  let ops ← declarators.mapM fun d => d.bindLocal isImplicit declared
  match ops with
  | [op] => return op
  | _ => Bind.add ⟨.block ops, none, span.origin, true, none⟩

/-- Binds an expression as a statement. -/
def bindExpression (value : Expr) : Bind OperationId := do
  Bind.addStmt value.span (.expressionStatement (← value.bindValue))

/-- Binds a condition. -/
def bindCondition (condition : Expr) : Bind OperationId := do
  condition.bindConverted (← Bind.special .boolean)

/-- Binds what a `for` does first. -/
def bindStart : ForStart → Bind (Option OperationId)
  | .nothing => return none
  | .locals type declarators span => some <$> bindLocals type declarators span
  | .expression value => some <$> bindExpression value

mutual

/-- Binds a statement. A block and a `for` have locals of their own. -/
def bind : Stmt → Bind OperationId
  | .block statements span => do
    let items ← Bind.inBlock (bindAll statements)
    Bind.addStmt span (.block items)
  | .locals type declarators span => bindLocals type declarators span
  | .expression value => bindExpression value
  | .ret value span => do
    let target ← if ← Bind.returnsNothing then pure none else pure (← read).returns
    let value ← value.mapM (·.bindConverted target)
    Bind.addStmt span (.ret value)
  | .ifThen condition whenTrue span => do
    let condition ← bindCondition condition
    let whenTrue ← whenTrue.bind
    Bind.addStmt span (.branch condition whenTrue none)
  | .ifElse condition whenTrue whenFalse span => do
    let condition ← bindCondition condition
    let whenTrue ← whenTrue.bind
    let whenFalse ← whenFalse.bind
    Bind.addStmt span (.branch condition whenTrue (some whenFalse))
  | .whileLoop condition body span => do
    let condition ← bindCondition condition
    let body ← body.bind
    Bind.addStmt span (.loop none (some condition) [] body)
  | .forLoop start condition iterators body span => do
    let kind ← Bind.inBlock do
      let start ← bindStart start
      let condition ← condition.mapM bindCondition
      let iterators ← iterators.mapM Expr.bindValue
      let body ← body.bind
      return .loop start condition iterators body
    Bind.addStmt span kind
  | .empty span => Bind.addStmt span .empty

/-- Binds statements from first to last. -/
def bindAll : List Stmt → Bind (List OperationId)
  | [] => return []
  | s :: ss => do
    let op ← s.bind
    return op :: (← bindAll ss)

end

end Stmt

/-- Binds an expression behind an arrow: a statement where nothing is given back, and else the value
that is. -/
def Expr.bindArrow (value : Expr) : Bind OperationId := do
  let kind ←
    if ← Bind.returnsNothing then .expressionStatement <$> value.bindValue
    else do
      let op ← value.bindConverted (← read).returns
      pure (.ret (some op))
  Bind.add ⟨kind, none, value.span.origin, true, none⟩

def Body.bind : Body → Bind OperationId
  | .block statements span => (Stmt.block statements span).bind
  | .arrow value => value.bindArrow

end CultureLint
