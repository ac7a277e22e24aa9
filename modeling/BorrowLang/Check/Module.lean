import BorrowLang.Names.Item
import BorrowLang.Check.Expr

/-! Programs, and the checking of functions, of modules and of a whole program. -/
namespace BorrowLang

/-- A module tree whose names are bound, with its symbols. -/
structure Program where
  root : Module
  symbols : Symbols

def Program.ofModule (root : Module) : Result Program := do
  let root ← root.bindNames
  return ⟨root, ← Symbols.ofModule root⟩

namespace Check

/-- Declares the arguments one by one, their types resolved. -/
def functionArgs (env : Env) (span : Span) : List FunctionArg → Check (List FunctionArg)
  | [] => return []
  | ⟨pattern, type⟩ :: rest => do
    let type ← resolveType env span type
    Check.pattern env.symbols pattern type
    return ⟨pattern, type⟩ :: (← functionArgs env span rest)

/-- The declared return type is all that is known of the body from outside. -/
def function (env : Env) (d : Function) : Check Function := inFrame do
  declareParams d.params d.span
  let ret ← resolveType env d.span d.ret
  let args ← functionArgs env d.span d.args
  match d.code with
  | none => return { d with args }
  | some code => return { d with args, code := some (← expr env code ret) }

def implItems (env : Env) : List ImplItem → Check (List ImplItem)
  | [] => return []
  | ⟨name, .function body⟩ :: rest => do
    let body ← function env body
    return ⟨name, .function body⟩ :: (← implItems env rest)
  | item :: rest => return item :: (← implItems env rest)

def implBlock (env : Env) (d : ImplBlock) : Check ImplBlock := inFrame do
  declareParams d.params d.span
  return { d with items := ← implItems env d.items }

end Check

/-- The traits that the bodies of a module see, latest first: those it imports, and before them
those it defines. -/
def Module.visibleTraits (parents : List String) (m : Module) : List Path :=
  let defined := m.items.filterMap fun item =>
    match item with
    | .traitDef d =>
      let names := parents ++ [d.name]
      some { Path.ofNames true names with binding := .traitItem (Key.ofNames names) }
    | _ => none
  let imported := m.uses.filter fun p =>
    match p.binding with
    | .traitItem _ => true
    | _ => false
  (defined ++ imported).reverse

def Module.frame (parents : List String) (m : Module) : Frame :=
  { Frame.empty with traits := m.visibleTraits parents }

namespace Check

mutual

/-- The bodies of a module reached by the names `parents`; no frame of another module is seen. -/
def module (env : Env) (parents : List String) : Module → Check Module
  | ⟨name, uses, held⟩ => isolated (Module.frame parents ⟨name, uses, held⟩) do
    return ⟨name, uses, ← items env parents held⟩

/-- Items without a body to check stay as they are. -/
def item (env : Env) (parents : List String) : Item → Check Item
  | .function d => return .function (← function env d)
  | .impl d => if env.options.implMethods then return .impl (← implBlock env d) else return .impl d
  | .module m => return .module (← module env (parents ++ [m.name]) m)
  | .struct d => return .struct d
  | .enum d => return .enum d
  | .traitDef d => return .traitDef d
  | .static d => return .static d
  | .typeAlias d => return .typeAlias d

def items (env : Env) (parents : List String) : List Item → Check (List Item)
  | [] => return []
  | i :: is => return (← item env parents i) :: (← items env parents is)

end

end Check

/-- The module tree with a type for every expression. -/
def Program.check (p : Program) (options : CheckOptions) : Result Module :=
  ((Check.module ⟨p.symbols, options⟩ [] p.root).run []).1

end BorrowLang
