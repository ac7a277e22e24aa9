import BorrowLang.Symbols.Basic

/-! Expansion of type aliases. -/
namespace BorrowLang
namespace Ty

section
variable (unfold : Key → List Ty → Result Ty)

mutual

/-- Every path bound to an alias replaced by what `unfold` gives for the alias and the path's own
arguments, which are expanded first. -/
def expandWith : Ty → Result Ty
  | path ⟨absolute, segments, binding⟩ => do
    let segments ← expandSegmentsWith segments
    match binding with
    | .typeAlias key => unfold key (Path.lastArgs ⟨absolute, segments, binding⟩)
    | _ => return path ⟨absolute, segments, binding⟩
  | borrow kind inner => return borrow kind (← expandWith inner)
  | array inner size => return array (← expandWith inner) size
  | tuple items => return tuple (← expandAllWith items)
  | wildcard => return wildcard
  | unit => return unit
  | primitive scalar => return primitive scalar
  | generic name => return generic name

def expandAllWith : List Ty → Result (List Ty)
  | [] => return []
  | t :: ts => return (← expandWith t) :: (← expandAllWith ts)

def expandSegmentsWith : List Segment → Result (List Segment)
  | [] => return []
  | ⟨name, args⟩ :: rest => return ⟨name, ← expandAllWith args⟩ :: (← expandSegmentsWith rest)

end

end

end Ty

namespace Aliases

/-- How many aliases deep an expansion may go. -/
def depthLimit : Nat := 64

/-- At most `n` aliases deep; a chain that is longer is taken to be circular. -/
def expandAt (aliases : Aliases) (span : Span) : (n : Nat) → Ty → Result Ty
  | 0 => Ty.expandWith fun key _ =>
    .error (.unsupported ("recursive type alias `" ++ key ++ "`") span)
  | n + 1 => Ty.expandWith fun key args => do
    let d ← aliases.find key span
    expandAt aliases span n (d.type.substitute (.ofArgs d.params.names args))

/-- The type without aliases. -/
def expand (aliases : Aliases) (span : Span) (t : Ty) : Result Ty :=
  aliases.expandAt span depthLimit t

def expandField (aliases : Aliases) (f : Field) : Result Field :=
  return { f with type := ← aliases.expand f.span f.type }

def expandStruct (aliases : Aliases) (d : StructDef) : Result StructDef :=
  return { d with fields := ← d.fields.mapM aliases.expandField }

/-- A discriminant holds no type to expand. -/
def expandVariant (aliases : Aliases) (v : Variant) : Result Variant :=
  match v.data with
  | .value _ => return v
  | .tuple types => return { v with data := .tuple (← types.mapM (aliases.expand v.span)) }
  | .fields fields => return { v with data := .fields (← fields.mapM aliases.expandField) }

def expandEnum (aliases : Aliases) (d : EnumDef) : Result EnumDef :=
  return { d with variants := ← d.variants.mapM aliases.expandVariant }

def expandSignature (aliases : Aliases) (span : Span) (s : Signature) : Result Signature := do
  let args ← s.args.mapM (aliases.expand span)
  return { s with args, ret := ← aliases.expand span s.ret }

def expandImpl (aliases : Aliases) (d : ImplSignature) : Result ImplSignature := do
  let selfType ← aliases.expand d.span d.selfType
  let methods ← d.methods.mapM fun (name, s) => return (name, ← aliases.expandSignature d.span s)
  return { d with selfType, methods }

end Aliases

/-- The values of a table changed in order. -/
def Table.mapValuesM {α : Type} (f : α → Result α) (t : Table α) : Result (Table α) :=
  t.mapM fun (key, value) => return (key, ← f value)

namespace Symbols

/-- The same symbols with no alias left in any type; the aliases themselves stay as written. -/
def expandAliases (s : Symbols) : Result Symbols := do
  let structs ← s.structs.mapValuesM s.aliases.expandStruct
  let enums ← s.enums.mapValuesM s.aliases.expandEnum
  let statics ← s.statics.mapValuesM (s.aliases.expand default)
  let functions ← s.functions.mapValuesM (s.aliases.expandSignature default)
  let impls ← s.impls.mapM s.aliases.expandImpl
  return ⟨structs, enums, statics, functions, s.aliases, impls⟩

/-- The symbols of a program whose names are bound. -/
def ofModule (root : Module) : Result Symbols := (empty.collect [] root).expandAliases

end Symbols
end BorrowLang
