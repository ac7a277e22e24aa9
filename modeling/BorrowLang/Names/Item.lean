import BorrowLang.Names.Expr

/-! Binding of items and of a whole module tree. -/
namespace BorrowLang
namespace Names

def bindBound (cx : Context) : Bound → Result Bound
  | .isTrait type traitPath span => do
    let type ← bindType cx span type
    return .isTrait type (← bindPath cx span traitPath) span
  | .lifetime type lifetime => return .lifetime (← bindType cx default type) lifetime

/-- The bounds may mention the parameters they belong to. -/
def bindParams (cx : Context) (params : Params) : Result Params :=
  return ⟨params.names, ← params.bounds.mapM (bindBound (cx.withGenerics params.names))⟩

def bindFunction (cx : Context) (d : Function) : Result Function := do
  let params ← bindParams cx d.params
  let cx := cx.withGenerics d.params.names
  let args ← d.args.mapM fun arg => do
    let type ← bindType cx d.span arg.type
    return { arg with type, pattern := ← bindPattern cx arg.pattern }
  let ret ← bindType cx d.span d.ret
  return { d with params, args, ret, code := ← bindOption cx d.code }

def bindFields (cx : Context) (fields : List Field) : Result (List Field) :=
  fields.mapM fun f => return { f with type := ← bindType cx f.span f.type }

def bindVariant (cx : Context) (v : Variant) : Result Variant :=
  match v.data with
  | .value discriminant => return { v with data := .value (← bindOption cx discriminant) }
  | .tuple types => return { v with data := .tuple (← bindTypes cx v.span types) }
  | .fields fields => return { v with data := .fields (← bindFields cx fields) }

def bindMember (cx : Context) (span : Span) : Member → Result Member
  | .function body => return .function (← bindFunction cx body)
  | .const type value => do
    let type ← bindType cx value.span type
    return .const type (← bindExpr cx value)
  | .type target => return .type (← bindType cx span target)

/-- In the items of the block `Self` is its bound type. -/
def bindImpl (cx : Context) (d : ImplBlock) : Result ImplBlock := do
  let params ← bindParams cx d.params
  let cx := cx.withGenerics d.params.names
  let selfType ← bindType cx d.span d.selfType
  let traitPath ← d.traitPath.mapM (bindPath cx d.span)
  let items ← d.items.mapM fun item =>
    return { item with member := ← bindMember (cx.withSelf selfType) d.span item.member }
  return { d with params, selfType, traitPath, items }

def bindStruct (cx : Context) (d : StructDef) : Result StructDef := do
  let params ← bindParams cx d.params
  return { d with params, fields := ← bindFields (cx.withGenerics d.params.names) d.fields }

def bindEnum (cx : Context) (d : EnumDef) : Result EnumDef := do
  let params ← bindParams cx d.params
  let variants ← d.variants.mapM (bindVariant (cx.withGenerics d.params.names))
  return { d with params, variants }

def bindTrait (cx : Context) (d : TraitDef) : Result TraitDef := do
  let params ← bindParams cx d.params
  let methods ← d.methods.mapM (bindFunction (cx.withGenerics d.params.names))
  return { d with params, methods }

def bindStatic (cx : Context) (d : StaticDef) : Result StaticDef := do
  let type ← bindType cx d.span d.type
  return { d with type, value := ← bindExpr cx d.value }

def bindAlias (cx : Context) (d : AliasDef) : Result AliasDef := do
  let params ← bindParams cx d.params
  return { d with params, type := ← bindType (cx.withGenerics d.params.names) d.span d.type }

/-- Each import is seen by the later ones; its last name stands for the whole path. -/
def bindUses (cx : Context) : List Path → Result (List Path × Context)
  | [] => return ([], cx)
  | p :: ps => do
    let p ← bindPath cx default p
    let imports := p.names.getLast?.toList.map (·, p.names)
    let (ps, cx) ← bindUses { cx with imports := imports ++ cx.imports } ps
    return (p :: ps, cx)

mutual

/-- In a context that is inside the module and has none of its imports yet. -/
def bindModule (cx : Context) : Module → Result Module
  | ⟨name, uses, items⟩ => do
    let (uses, cx) ← bindUses cx uses
    return ⟨name, uses, ← bindItems cx items⟩

def bindItem (cx : Context) : Item → Result Item
  | .function d => return .function (← bindFunction cx d)
  | .struct d => return .struct (← bindStruct cx d)
  | .enum d => return .enum (← bindEnum cx d)
  | .traitDef d => return .traitDef (← bindTrait cx d)
  | .impl d => return .impl (← bindImpl cx d)
  | .static d => return .static (← bindStatic cx d)
  | .typeAlias d => return .typeAlias (← bindAlias cx d)
  | .module m => return .module (← bindModule (cx.enter m.name) m)

def bindItems (cx : Context) : List Item → Result (List Item)
  | [] => return []
  | item :: items => return (← bindItem cx item) :: (← bindItems cx items)

end

end Names

/-- The module tree with every item path bound and made absolute. -/
def Module.bindNames (root : Module) : Result Module :=
  Names.bindModule ⟨.ofModule root, [], [], [], none⟩ root

end BorrowLang
