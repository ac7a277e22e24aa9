import BorrowLang.Names.Context

/-! Binding of the paths and types in patterns and expressions. -/
namespace BorrowLang.Names

mutual

/-- The types inside literals are left as they are written. -/
def bindPattern (cx : Context) : Pattern → Result Pattern
  | .tuple items span => return .tuple (← bindPatterns cx items) span
  | .reference inner span => return .reference (← bindPattern cx inner) span
  | .variant path items span => do
    let path ← bindPath cx span path
    return .variant path (← bindPatterns cx items) span
  | .fields path fields span => do
    let path ← bindPath cx span path
    return .fields path (← bindFieldPatterns cx fields) span
  | .wildcard span => return .wildcard span
  | .identifier name mutability span => return .identifier name mutability span
  | .literal value span => return .literal value span

def bindPatterns (cx : Context) : List Pattern → Result (List Pattern)
  | [] => return []
  | p :: ps => return (← bindPattern cx p) :: (← bindPatterns cx ps)

def bindFieldPatterns (cx : Context) : List (String × Pattern) → Result (List (String × Pattern))
  | [] => return []
  | (name, p) :: rest => return (name, ← bindPattern cx p) :: (← bindFieldPatterns cx rest)

end

def bindAliases (cx : Context) (span : Span) (aliases : List (String × Ty)) :
    Result (List (String × Ty)) :=
  aliases.mapM fun (name, t) => return (name, ← bindType cx span t)

/-- A relative path of at most one segment is a local variable, which has no item to name. -/
def bindNamed (cx : Context) (span : Span) (p : Path) : Result Path :=
  if p.absolute || p.segments.length > 1 then bindPath cx span p else .ok p

mutual

def bindExpr (cx : Context) : Expr → Result Expr
  | ⟨kind, type, span⟩ => return ⟨← bindKind cx span kind, type, span⟩

/-- The parts are bound in the order in which they are written, except that the type arguments of
a method come before its receiver and the target of a cast before its value. -/
def bindKind (cx : Context) (span : Span) : ExprKind → Result ExprKind
  | .block ⟨statements, tail, traits, aliases⟩ => do
    let traits ← traits.mapM (bindPath cx span)
    let aliases ← bindAliases cx span aliases
    let statements ← bindExprs cx statements
    return .block ⟨statements, ← bindOption cx tail, traits, aliases⟩
  | .letIn pattern type value => do
    let type ← bindType cx span type
    let pattern ← bindPattern cx pattern
    return .letIn pattern type (← bindExpr cx value)
  | .assign place value => return .assign (← bindExpr cx place) (← bindExpr cx value)
  | .ret value => return .ret (← bindOption cx value)
  | .cond condition thenBranch elseBranch => do
    let condition ← bindExpr cx condition
    let thenBranch ← bindExpr cx thenBranch
    return .cond condition thenBranch (← bindOption cx elseBranch)
  | .matchOn value arms => return .matchOn (← bindExpr cx value) (← bindArms cx arms)
  | .callPath path args => return .callPath (← bindPath cx span path) (← bindExprs cx args)
  | .callMethod receiver ⟨name, types⟩ args => do
    let types ← bindTypes cx span types
    let receiver ← bindExpr cx receiver
    return .callMethod receiver ⟨name, types⟩ (← bindExprs cx args)
  | .callValue callee args => return .callValue (← bindExpr cx callee) (← bindExprs cx args)
  | .named path => return .named (← bindNamed cx span path)
  | .field object name => return .field (← bindExpr cx object) name
  | .index value index => return .index (← bindExpr cx value) (← bindExpr cx index)
  | .deref value => return .deref (← bindExpr cx value)
  | .borrow kind value => return .borrow kind (← bindExpr cx value)
  | .cast value target => do
    let target ← bindType cx span target
    return .cast (← bindExpr cx value) target
  | .tuple items => return .tuple (← bindExprs cx items)
  | .literal value => return .literal value
  | .binary op left right => return .binary op (← bindExpr cx left) (← bindExpr cx right)

def bindOption (cx : Context) : Option Expr → Result (Option Expr)
  | none => return none
  | some e => return some (← bindExpr cx e)

def bindExprs (cx : Context) : List Expr → Result (List Expr)
  | [] => return []
  | e :: es => return (← bindExpr cx e) :: (← bindExprs cx es)

def bindArms (cx : Context) : List Arm → Result (List Arm)
  | [] => return []
  | ⟨patterns, guard, code⟩ :: rest => do
    let patterns ← bindPatterns cx patterns
    let guard ← bindOption cx guard
    let code ← bindExpr cx code
    return ⟨patterns, guard, code⟩ :: (← bindArms cx rest)

end

end BorrowLang.Names
