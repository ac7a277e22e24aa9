import BorrowLang.Typed.Display

/-! Items of a program whose types are final. -/
namespace BorrowLang.Typed

structure Function where
  args : List (String × Ty)
  ret : Ty
  code : Option Expr

/-- A constant or a static. -/
structure Global where
  type : Ty
  value : Option Expr

inductive Variant
  | unit
  | value (discriminant : Expr)
  | tuple (types : List Ty)
  | fields (fields : List (String × Ty))

inductive TraitItem
  | method (body : Function)
  | const (type : Ty) (default : Option Expr)

mutual

inductive Item
  | function (body : Function)
  | static (body : Global)
  | const (body : Global)
  | struct (fields : List (String × Ty))
  | enum (variants : List (String × Variant))
  | typeAlias (target : Ty)
  | traitDef (items : List (String × TraitItem))
  | module (body : Module)

structure Module where
  items : List (String × Item)

end

structure Impl where
  traitPath : Option ItemPath
  selfType : Ty
  methods : List (String × Function)
  consts : List (String × Global)

structure Program where
  root : Module
  impls : List Impl

end BorrowLang.Typed
