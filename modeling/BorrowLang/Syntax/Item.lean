import BorrowLang.Syntax.Expr

/-! Items and the modules that hold them. -/
namespace BorrowLang

inductive Bound
  | isTrait (type : Ty) (traitPath : Path) (span : Span)
  | lifetime (type : Ty) (lifetime : String)

/-- Type parameters by name, with the bounds written for them. -/
structure Params where
  names : List String
  bounds : List Bound

structure FunctionArg where
  pattern : Pattern
  type : Ty

structure Function where
  name : String
  params : Params
  args : List FunctionArg
  ret : Ty
  code : Option Expr
  span : Span

structure Field where
  name : String
  type : Ty
  span : Span

structure StructDef where
  name : String
  params : Params
  fields : List Field
  span : Span

inductive VariantData
  /-- No fields, perhaps a discriminant. -/
  | value (discriminant : Option Expr)
  | tuple (types : List Ty)
  | fields (fields : List Field)

structure Variant where
  name : String
  data : VariantData
  span : Span

structure EnumDef where
  name : String
  params : Params
  variants : List Variant
  span : Span

structure TraitDef where
  name : String
  params : Params
  methods : List Function
  span : Span

inductive Member
  | function (body : Function)
  | const (type : Ty) (value : Expr)
  | type (target : Ty)

/-- A member may be known by another name than its function. -/
structure ImplItem where
  name : String
  member : Member

structure ImplBlock where
  params : Params
  traitPath : Option Path
  selfType : Ty
  items : List ImplItem
  span : Span

structure StaticDef where
  name : String
  mutability : Mutability
  type : Ty
  value : Expr
  span : Span

structure AliasDef where
  name : String
  params : Params
  type : Ty
  span : Span

mutual

inductive Item
  | function (body : Function)
  | struct (body : StructDef)
  | enum (body : EnumDef)
  | traitDef (body : TraitDef)
  | impl (body : ImplBlock)
  | static (body : StaticDef)
  | typeAlias (body : AliasDef)
  | module (body : Module)

structure Module where
  name : String
  uses : List Path
  items : List Item

end

end BorrowLang
