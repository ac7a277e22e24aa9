import BorrowLang.Check.Scope

/-! Patterns: the types of their parts, and the locals they declare. -/
namespace BorrowLang

/-- The types of the fields by position, where the variant has no field names. -/
def VariantData.positional? : VariantData → Option (List Ty)
  | value _ => some []
  | tuple types => some types
  | fields _ => none

namespace Symbols

/-- A variant with the enum it belongs to. -/
def variant (s : Symbols) (enumKey : Key) (index : Nat) (span : Span) :
    Result (EnumDef × Variant) := do
  let d ← s.enums.find enumKey span
  match d.variants[index]? with
  | some v => return (d, v)
  | none => throw (.invariantViolation s!"variant #{index} missing from `{enumKey}`" span)

end Symbols

namespace Ty

/-- The arguments of the item `owner` that the type must be of once references are removed. -/
def argsOf (owner : Key) (t : Ty) (span : Span) : Result (List Ty) :=
  match t.stripped with
  | wildcard => .ok []
  | path p => if p.key = owner then .ok p.lastArgs else .error (.typeMismatch owner p.display span)
  | u => .error (.typeMismatch owner u.display span)

/-- What is bound under a reference is a reference of the same kind, unless nothing is known. -/
def behind (kind : Option BorrowKind) (t : Ty) : Ty :=
  match kind with
  | none => t
  | some kind => if t.isWildcard then t else borrow kind t

/-- The types of the parts of a value that is matched with a tuple of `n` patterns. -/
def tupleParts (n : Nat) (t : Ty) (span : Span) : Result (List Ty) :=
  match t with
  | wildcard => .ok (List.replicate n wildcard)
  | unit =>
    if n = 0 then .ok [] else .error (.typeMismatch s!"a tuple of {n} elements" t.display span)
  | tuple types =>
    if types.length = n then .ok types
    else .error (.arityMismatch
      s!"tuple pattern has {n} elements but the value has {types.length}" span)
  | t => .error (.typeMismatch s!"a tuple of {n} elements" t.display span)

def referencePart (t : Ty) (span : Span) : Result Ty :=
  match t with
  | wildcard => .ok wildcard
  | borrow _ inner => .ok inner
  | t => .error (.typeMismatch "a reference" t.display span)

/-- The type of a declared field in a value of type `t` whose item has these arguments. -/
def fieldPart (params : Params) (args : List Ty) (t declared : Ty) : Ty :=
  (declared.substitute (.ofArgs params.names args)).behind t.outerKind?

end Ty

namespace Symbols

/-- The types of the parts of a value matched with a variant and `n` patterns. -/
def variantParts (s : Symbols) (path : Path) (n : Nat) (t : Ty) (span : Span) :
    Result (List Ty) := do
  match path.binding with
  | .variant enumKey index =>
    let (d, v) ← s.variant enumKey index span
    match v.data.positional? with
    | none => throw (.unsupported s!"tuple pattern for struct-like variant `{path}`" span)
    | some types =>
      if types.length ≠ n then
        throw (.arityMismatch
          s!"pattern has {n} fields but variant `{path}` has {types.length}" span)
      let args ← t.argsOf enumKey span
      return types.map (t.fieldPart d.params args)
  | binding => throw (.typeMismatch "an enum variant" binding.display span)

/-- The owner of the named fields of a pattern, its parameters and the fields. -/
def fieldOwner (s : Symbols) (path : Path) (span : Span) : Result (Key × Params × List Field) := do
  match path.binding with
  | .structType key =>
    let d ← s.structs.find key span
    return (key, d.params, d.fields)
  | .variant enumKey index =>
    let d ← s.enums.find enumKey span
    match d.variants[index]? with
    | some ⟨_, .fields fields, _⟩ => return (enumKey, d.params, fields)
    | _ => throw (.typeMismatch "a struct-like variant" path.display span)
  | binding => throw (.typeMismatch "a struct" binding.display span)

/-- The types of the named parts of a value matched with a struct or variant of named fields. -/
def namedParts (s : Symbols) (path : Path) (t : Ty) (span : Span) :
    Result (List (String × Ty)) := do
  let (owner, params, fields) ← s.fieldOwner path span
  let args ← t.argsOf owner span
  return fields.map fun f => (f.name, t.fieldPart params args f.type)

end Symbols

namespace Check

mutual

/-- Declares what the pattern binds in a value of the type, from left to right. -/
def pattern (s : Symbols) : Pattern → Ty → Check Unit
  | .wildcard _, _ => pure ()
  | .identifier name mutability span, t => declare ⟨name, mutability, t⟩ span
  | .literal value span, t => ofResult (discard (t.mergeAt value.type span))
  | .tuple items span, t => do patterns s items (← ofResult (t.tupleParts items.length span))
  | .reference inner span, t => do pattern s inner (← ofResult (t.referencePart span))
  | .variant path items span, t => do
    patterns s items (← ofResult (s.variantParts path items.length t span))
  | .fields path fields span, t => do
    fieldPatterns s path span (← ofResult (s.namedParts path t span)) fields

def patterns (s : Symbols) : List Pattern → List Ty → Check Unit
  | p :: ps, t :: ts => do
    pattern s p t
    patterns s ps ts
  | _, _ => pure ()

def fieldPatterns (s : Symbols) (path : Path) (span : Span) (parts : List (String × Ty)) :
    List (String × Pattern) → Check Unit
  | [] => pure ()
  | (name, p) :: rest => do
    match parts.lookup name with
    | none => throw (.unresolvedMember s!"no field `{name}` on `{path}`" span)
    | some t => pattern s p t
    fieldPatterns s path span parts rest

end

/-- Alternative patterns, all of the same value. -/
def eachPattern (s : Symbols) : List Pattern → Ty → Check Unit
  | [], _ => pure ()
  | p :: ps, t => do
    pattern s p t
    eachPattern s ps t

end Check
end BorrowLang
