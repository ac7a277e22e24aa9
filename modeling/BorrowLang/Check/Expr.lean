import BorrowLang.Ty.Same
import BorrowLang.Check.Named
import BorrowLang.Check.Method

/-!
The type of every expression of a body. What is known of an expression from outside is merged with
what its parts give; dereferences left implicit are made explicit.
-/
namespace BorrowLang

/-- The type behind a dereference; nothing is known behind a value of unknown type. -/
def Expr.pointee (value : Expr) : Result Ty :=
  match value.type with
  | .borrow _ inner => .ok inner
  | .wildcard => .ok .wildcard
  | t => .error (.typeMismatch "a reference" t.display value.span)

/-- The element type of an array, seen through references. -/
def Ty.element (t : Ty) : Ty :=
  match t.stripped with
  | .array inner _ => inner
  | _ => .wildcard

/-- The type of a field of a value of known type, seen through references. -/
def Symbols.memberType (s : Symbols) (t : Ty) (name : String) (span : Span) : Result Ty :=
  match t.stripped with
  | .path p =>
    match p.binding with
    | .structType key => s.fieldType key p.lastArgs name span
    | _ => .error (.unresolvedMember s!"no field `{name}` on type `{p}`" span)
  | u => .error (.unresolvedMember s!"no field `{name}` on type `{u}`" span)

/-- The type of a local with the declared and the found type, which may not differ once both are
known. -/
def Expr.letType (value : Expr) (declared : Ty) (span : Span) : Result Ty :=
  if declared.isConcrete && value.type.isConcrete && !declared.same value.type then
    .error (.typeMismatch declared.display value.type.display value.span)
  else declared.mergeAt value.type span

def BinaryOp.type (op : BinaryOp) (left right : Ty) (span : Span) : Result Ty := do
  let operand ← left.mergeAt right span
  return if op.yieldsBool then .primitive .bool else operand

def Expr.tupleType (items : List Expr) : Ty :=
  if items.isEmpty then .unit else .tuple (items.map (·.type))

namespace Check

def merge (t u : Ty) (span : Span) : Check Ty := ofResult (t.mergeAt u span)

def declareAliases (env : Env) (span : Span) : List (String × Ty) → Check Unit
  | [] => pure ()
  | (name, t) :: rest => do
    let t ← resolveType env span t
    modifyFrame span fun f => { f with aliases := (name, t) :: f.aliases }
    declareAliases env span rest

/-- What a block makes visible. -/
def openBlock (env : Env) (span : Span) (traits : List Path) (aliases : List (String × Ty)) :
    Check Unit := do
  declareAliases env span aliases
  modifyFrame span fun f => { f with traits := traits.reverse ++ f.traits }

mutual

/-- The expression with `expected` for what is known of its type; its own annotation counts only
as far as it went into `expected`. -/
def expr (env : Env) : Expr → (expected : Ty) → Check Expr
  | ⟨kind, _, span⟩, expected => do
    let (kind, type) ← exprKind env span kind expected
    return ⟨kind, type, span⟩

def exprKind (env : Env) (span : Span) : ExprKind → (expected : Ty) → Check (ExprKind × Ty)
  | .block ⟨statements, tail, traits, aliases⟩, expected => inFrame do
    openBlock env span traits aliases
    let statements ← exprs env statements
    match tail with
    | some tail => do
      let tail ← expr env tail (← merge tail.type expected tail.span)
      let type ← merge expected tail.type tail.span
      return (.block ⟨statements, some tail, traits, aliases⟩, type)
    | none =>
      let type := if expected.isWildcard then .unit else expected
      return (.block ⟨statements, none, traits, aliases⟩, type)
  | .letIn pattern declared value, expected => do
    let declared ← resolveType env span declared
    let value ← expr env value value.type
    let type ← ofResult (value.letType declared span)
    Check.pattern env.symbols pattern type
    return (.letIn pattern type { value with type }, ← merge expected .unit span)
  | .assign place value, expected => do
    let place ← expr env place place.type
    let value ← expr env value value.type
    return (.assign place value, ← merge expected .unit span)
  | .ret value, expected => return (.ret (← optional env value), expected)
  | .cond condition thenBranch elseBranch, expected => do
    let condition ← expr env condition condition.type
    let thenBranch ← expr env thenBranch thenBranch.type
    match elseBranch with
    | some elseBranch => do
      let elseBranch ← expr env elseBranch elseBranch.type
      let type ← merge expected thenBranch.type span
      return (.cond condition thenBranch (some elseBranch), ← merge type elseBranch.type span)
    | none => return (.cond condition thenBranch none, ← merge expected .unit span)
  | .matchOn value arms, expected => do
    let value ← expr env value value.type
    let (arms, type) ← matchArms env span value.type arms expected
    return (.matchOn value arms, type)
  | .callPath path args, expected => do
    let args ← exprs env args
    let type ← ofResult (env.symbols.callType path (args.map (·.type)) span)
    return (.callPath path args, ← merge expected type span)
  | .callMethod receiver method args, expected => do
    let receiver ← expr env receiver receiver.type
    let args ← exprs env args
    let c ← Check.method env receiver.type method args.length span
    return (.callMethod (receiver.derefTimes c.derefs) method args, ← merge expected c.ret span)
  | .callValue callee args, expected => do
    let callee ← expr env callee callee.type
    return (.callValue callee (← exprs env args), expected)
  | .named path, expected => do
    match path.soleName? with
    | some name => return (.named path, ← useLocal name expected span)
    | none =>
      let type ← ofResult (env.symbols.valueType path span)
      return (.named path, ← merge expected type span)
  | .field object name, expected => do
    let object ← expr env object object.type
    if !object.type.isConcrete then return (.field object name, expected)
    let type ← ofResult (env.symbols.memberType object.type name span)
    let type ← merge expected type span
    return (.field (object.derefTimes object.type.layers) name, type)
  | .index value index, expected => do
    let value ← expr env value value.type
    let index ← expr env index index.type
    return (.index value index, ← merge expected value.type.element span)
  | .deref value, expected => do
    let value ← expr env value value.type
    return (.deref value, ← merge expected (← ofResult value.pointee) span)
  | .borrow kind value, expected => do
    let inside ← merge value.type (expected.pointee?.getD .wildcard) span
    let value ← expr env value inside
    return (.borrow kind value, ← merge expected (.borrow kind value.type) span)
  | .cast value target, expected => do
    let target ← resolveType env span target
    let value ← expr env value value.type
    return (.cast value target, ← merge expected target span)
  | .tuple items, expected => do
    let items ← exprs env items
    return (.tuple items, ← merge expected (Expr.tupleType items) span)
  | .literal value, expected => return (.literal value, ← merge expected value.type span)
  | .binary op left right, expected => do
    let left ← expr env left left.type
    let right ← expr env right right.type
    let type ← ofResult (op.type left.type right.type span)
    return (.binary op left right, ← merge expected type span)

/-- Each with its own annotation for what is known of it. -/
def exprs (env : Env) : List Expr → Check (List Expr)
  | [] => return []
  | e :: es => return (← expr env e e.type) :: (← exprs env es)

def optional (env : Env) : Option Expr → Check (Option Expr)
  | none => return none
  | some e => return some (← expr env e e.type)

/-- Each arm is checked with what the arms before it gave for the type of the whole. -/
def matchArms (env : Env) (span : Span) (scrutinee : Ty) :
    List Arm → (expected : Ty) → Check (List Arm × Ty)
  | [], expected => return ([], expected)
  | ⟨patterns, guard, code⟩ :: rest, expected => do
    let (arm, type) ← inFrame do
      eachPattern env.symbols patterns scrutinee
      let guard ← optional env guard
      let code ← expr env code (← merge code.type expected span)
      return ((⟨patterns, guard, code⟩ : Arm), ← merge expected code.type code.span)
    let (arms, type) ← matchArms env span scrutinee rest type
    return (arm :: arms, type)

end

end Check
end BorrowLang
