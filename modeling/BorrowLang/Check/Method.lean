import BorrowLang.Check.Scope

/-! Which method a call means: the search over the references around its receiver. -/
namespace BorrowLang

structure Candidate where
  impl : ImplSignature
  signature : Signature
  /-- The receiver's type once the references are removed. -/
  receiver : Ty
  /-- How many references are removed. -/
  derefs : Nat

namespace Symbols

/-- The method of the first impl of the trait for the type, or of the first inherent impl. -/
def methodOf? (s : Symbols) (traitPath : Option Path) (t : Ty) (name : String) :
    Option (ImplSignature × Signature) := do
  let d ← s.impl? traitPath t
  return (d, ← d.method? name)

/-- An inherent method wins over those of traits, and an earlier trait over a later one. -/
def methodAt? (s : Symbols) (traits : List Path) (t : Ty) (name : String) :
    Option (ImplSignature × Signature) :=
  s.methodOf? none t name <|> traits.findSome? fun p => s.methodOf? (some p) t name

/-- The first method along the types, which have `derefs` references fewer and fewer. -/
def searchMethod (s : Symbols) (traits : List Path) (name : String) (missing unknown : Error) :
    (derefs : Nat) → List Ty → Result Candidate
  | _, [] => .error missing
  | derefs, t :: ts =>
    if t.isWildcard then .error unknown
    else match s.methodAt? traits t name with
      | some (d, signature) => .ok ⟨d, signature, t, derefs⟩
      | none => searchMethod s traits name missing unknown (derefs + 1) ts

end Symbols

/-- The method `name` of a receiver of type `t`, with no more references removed than allowed. -/
def Env.method (env : Env) (frames : Frames) (t : Ty) (name : String) (span : Span) :
    Result Candidate :=
  env.symbols.searchMethod frames.traits name
    (.unresolvedMember s!"no method named `{name}` found for `{t}`" span)
    (.unsupported s!"method `{name}` called on a value of unknown type" span)
    0 (t.derefChain.take (env.options.derefLimit + 1))

/-- The first declared argument of a method is its receiver. -/
def Candidate.checkArity (c : Candidate) (method : Segment) (given : Nat) (span : Span) :
    Result Unit := do
  let typeParams := c.signature.params.names.length
  let typeArgs := method.args.length
  let args := c.signature.args.length
  if typeParams ≠ typeArgs then
    throw (.arityMismatch
      s!"method `{method.name}` takes {typeParams} type parameters but {typeArgs} were supplied"
      span)
  if typeArgs ≠ 0 then
    throw (.unsupported s!"explicit type arguments on method `{method.name}`" span)
  if args ≠ given + 1 then
    throw (.arityMismatch
      s!"method `{method.name}` takes {args - 1} arguments but {given} were supplied" span)

/-- What the method returns for the receiver it was found for. -/
def Candidate.ret (c : Candidate) : Ty :=
  c.signature.ret.substitute ((c.impl.bindSelf? c.receiver).getD [])

/-- The candidate for a call whose receiver has type `t`; type parameters in `t` stand for what
they are in scope. -/
def Check.method (env : Env) (t : Ty) (method : Segment) (given : Nat) (span : Span) :
    Check Candidate := fun frames =>
  let found := do
    let t ← t.resolveArgs (frames.typeParam span)
    let c ← env.method frames t method.name span
    c.checkArity method given span
    return c
  (found, frames)

end BorrowLang
