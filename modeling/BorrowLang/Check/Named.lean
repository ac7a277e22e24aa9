import BorrowLang.Check.Pattern

/-! The types of values and calls that are named by item paths. -/
namespace BorrowLang

/-- The list cut or filled up with wildcards to length `n`. -/
def Ty.resize (n : Nat) (ts : List Ty) : List Ty :=
  ts.take n ++ List.replicate (n - ts.length) .wildcard

@[simp] theorem Ty.length_resize (n : Nat) (ts : List Ty) : (Ty.resize n ts).length = n := by
  simp [resize]
  omega

namespace Path

/-- The arguments of the segment before the last. -/
def parentArgs (p : Path) : List Ty :=
  (p.segments.dropLast.getLast?.map (·.args)).getD []

/-- The arguments of the enum that are written with a variant: behind the variant, or else behind
the enum. -/
def enumArgs (p : Path) : List Ty := if p.lastArgs.isEmpty then p.parentArgs else p.lastArgs

/-- The type of the enum that the path of a variant belongs to. -/
def enumType (p : Path) (enumKey : Key) (args : List Ty) : Ty :=
  .path { p.parent.withLastArgs args with binding := .enumType enumKey }

end Path

namespace EnumDef

/-- The written arguments, one for each parameter of the enum. -/
def args (d : EnumDef) (p : Path) (span : Span) : Result (List Ty) :=
  let given := p.enumArgs.length
  let declared := d.params.names.length
  if declared < given then
    .error (.arityMismatch
      s!"enum `{d.name}` takes {declared} type arguments but {given} were supplied" span)
  else .ok (Ty.resize declared p.enumArgs)

/-- What is found for a parameter merged into its argument. -/
def refineArg (d : EnumDef) (span : Span) (args : List Ty) (found : String × Ty) :
    Result (List Ty) := do
  let (name, t) := found
  match d.params.names.findIdx? (· == name) with
  | none => throw (.unresolvedName .typeParameter name span)
  | some i => return args.set i (← (args[i]?.getD .wildcard).mergeAt t span)

/-- The arguments refined by a value in the place of a field. -/
def refineArgs (d : EnumDef) (span : Span) (args : List Ty) (field : Ty × Ty) :
    Result (List Ty) := do
  let (template, found) := field
  (← template.matchTemplateAt found span).foldlM (d.refineArg span) args

end EnumDef

namespace Symbols

/-- A path to a value that is not a local. -/
def valueType (s : Symbols) (path : Path) (span : Span) : Result Ty := do
  match path.binding with
  | .staticItem key => s.statics.find key span
  | .variant enumKey index =>
    let (d, v) ← s.variant enumKey index span
    match v.data with
    | .value _ => return path.enumType enumKey (← d.args path span)
    | _ =>
      throw (.arityMismatch
        s!"enum variant `{path}` has fields and cannot be used as a value" span)
  | .structType key =>
    let d ← s.structs.find key span
    if !d.fields.isEmpty then
      throw (.arityMismatch s!"struct `{path}` has fields and cannot be used as a value" span)
    return .path (path.withLastArgs (Ty.resize d.params.names.length path.lastArgs))
  | .function _ => throw (.unsupported "function item used as a value" span)
  | binding =>
    throw (.invariantViolation s!"path `{path}` bound to {binding} used as a value" span)

/-- The enum type that results from a variant applied to values of these types. -/
def variantType (s : Symbols) (path : Path) (enumKey : Key) (index : Nat) (found : List Ty)
    (span : Span) : Result Ty := do
  let (d, v) ← s.variant enumKey index span
  match v.data.positional? with
  | none => throw (.unsupported s!"struct-like variant `{path}` called as a function" span)
  | some templates =>
    if templates.length ≠ found.length then
      throw (.arityMismatch
        s!"variant `{path}` has {templates.length} fields but {found.length} arguments were supplied"
        span)
    let args ← (templates.zip found).foldlM (d.refineArgs span) (← d.args path span)
    return path.enumType enumKey args

/-- The type of a call of a path with arguments of these types. -/
def callType (s : Symbols) (path : Path) (found : List Ty) (span : Span) : Result Ty := do
  match path.binding with
  | .function key =>
    let f ← s.functions.find key span
    if !f.params.names.isEmpty || !path.lastArgs.isEmpty then
      throw (.unsupported s!"call to generic function `{path}`" span)
    if f.args.length ≠ found.length then
      throw (.arityMismatch
        s!"function `{path}` takes {f.args.length} arguments but {found.length} were supplied"
        span)
    return f.ret
  | .variant enumKey index => s.variantType path enumKey index found span
  | .structType _ => throw (.unsupported "tuple struct constructor" span)
  | binding =>
    throw (.invariantViolation s!"path `{path}` bound to {binding} used as a callee" span)

end Symbols
end BorrowLang
