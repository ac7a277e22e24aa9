import BorrowLang.Symbols.Alias

/-! Finding items, impls and field types among the symbols. -/
namespace BorrowLang

/-- A type recorded for a parameter, merged with the one recorded for it before. -/
def Substitution.record? (s : Substitution) (name : String) (t : Ty) : Option Substitution :=
  match s.get? name with
  | none => some (s ++ [(name, t)])
  | some old => (old.merge? t).map fun new => s.map fun (n, u) => (n, if n = name then new else u)

namespace ImplSignature

/-- What the parameters of the impl stand for when its self type is `t`. -/
def bindSelf? (d : ImplSignature) (t : Ty) : Option Substitution := do
  let found ← d.selfType.matchTemplate? t
  found.foldlM (fun s (name, u) => s.record? name u) []

/-- An impl of the trait, or an inherent impl where no trait is asked for. -/
def isOf (d : ImplSignature) (traitPath : Option Path) : Bool :=
  match traitPath, d.traitPath with
  | none, none => true
  | some wanted, some found => wanted.key == found.key
  | _, _ => false

end ImplSignature

namespace Symbols

/-- The first impl of the trait for the type. -/
def impl? (s : Symbols) (traitPath : Option Path) (t : Ty) : Option ImplSignature :=
  s.impls.find? fun d => d.isOf traitPath && (d.bindSelf? t).isSome

/-- The type of a field of a struct with these arguments, those missing being wildcards. -/
def fieldType (s : Symbols) (key : Key) (args : List Ty) (name : String) (span : Span) :
    Result Ty := do
  let d ← s.structs.find key span
  match d.fields.find? (·.name == name) with
  | some f => return f.type.substitute (.ofArgs d.params.names args)
  | none => throw (.unresolvedMember ("no field `" ++ name ++ "` on `" ++ key ++ "`") span)

end Symbols
end BorrowLang
