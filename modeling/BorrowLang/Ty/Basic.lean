/-!
The built-in scalar types, partial types and the item paths inside them. A wildcard, an omitted
argument list and an omitted array size each stand for something not known yet.
-/
namespace BorrowLang

inductive Primitive
  | bool | char | str
  | u8 | u16 | u32 | u64 | u128 | usize
  | i8 | i16 | i32 | i64 | i128 | isize
  | f32 | f64
deriving DecidableEq

namespace Primitive

def all : List Primitive :=
  [bool, char, str, u8, u16, u32, u64, u128, usize, i8, i16, i32, i64, i128, isize, f32, f64]

def name : Primitive → String
  | bool => "bool"
  | char => "char"
  | str => "str"
  | u8 => "u8"
  | u16 => "u16"
  | u32 => "u32"
  | u64 => "u64"
  | u128 => "u128"
  | usize => "usize"
  | i8 => "i8"
  | i16 => "i16"
  | i32 => "i32"
  | i64 => "i64"
  | i128 => "i128"
  | isize => "isize"
  | f32 => "f32"
  | f64 => "f64"

def ofName? (name : String) : Option Primitive := all.find? (·.name == name)

end Primitive
inductive BorrowKind
  | shared
  | unique
deriving DecidableEq

inductive Mutability
  | immutable
  | mutable
deriving DecidableEq

/-- The absolute name of an item, as one text. -/
abbrev Key := String

/-- What a path was found to name. -/
inductive Binding
  | unbound
  | staticItem (key : Key)
  | structType (key : Key)
  | enumType (key : Key)
  | variant (enumKey : Key) (index : Nat)
  | function (key : Key)
  | traitItem (key : Key)
  | typeAlias (key : Key)
deriving DecidableEq

mutual

inductive Ty
  | wildcard
  | unit
  | primitive (scalar : Primitive)
  | generic (name : String)
  | borrow (kind : BorrowKind) (inner : Ty)
  | path (path : Path)
  | tuple (items : List Ty)
  | array (inner : Ty) (size : Option UInt64)

structure Path where
  absolute : Bool
  segments : List Segment
  binding : Binding

structure Segment where
  name : String
  args : List Ty

end

namespace Ty

instance : Inhabited Ty := ⟨wildcard⟩

def isWildcard : Ty → Bool
  | wildcard => true
  | _ => false

def isReference : Ty → Bool
  | borrow .. => true
  | _ => false

def isPath : Ty → Bool
  | path _ => true
  | _ => false

mutual

/-- No wildcard occurs at any depth; omitted arguments and sizes do not count as unknown. -/
def isConcrete : Ty → Bool
  | wildcard => false
  | unit | primitive _ | generic _ => true
  | borrow _ inner | array inner _ => isConcrete inner
  | path ⟨_, segments, _⟩ => segmentsConcrete segments
  | tuple items => allConcrete items

def allConcrete : List Ty → Bool
  | [] => true
  | t :: ts => isConcrete t && allConcrete ts

def segmentsConcrete : List Segment → Bool
  | [] => true
  | ⟨_, args⟩ :: rest => allConcrete args && segmentsConcrete rest

end

/-- The type behind one reference. -/
def pointee? : Ty → Option Ty
  | borrow _ inner => some inner
  | _ => none

/-- One reference layer less, where there is one. -/
def peel (t : Ty) : Ty := t.pointee?.getD t

/-- The type behind all its reference layers. -/
def stripped : Ty → Ty
  | borrow _ inner => inner.stripped
  | t => t

/-- The number of reference layers. -/
def layers : Ty → Nat
  | borrow _ inner => inner.layers + 1
  | _ => 0

/-- The kind of the outermost reference. -/
def outerKind? : Ty → Option BorrowKind
  | borrow kind _ => some kind
  | _ => none

/-- The type itself, then the types met by removing one reference layer after another. -/
def derefChain : Ty → List Ty
  | t@(borrow _ inner) => t :: inner.derefChain
  | t => [t]

/-- Behind a type that is no reference there is nothing. -/
theorem bare_of_ne_borrow {t : Ty} (h : ∀ kind inner, t ≠ borrow kind inner) :
    t.pointee? = none ∧ t.layers = 0 ∧ t.stripped = t := by
  cases t with
  | borrow kind inner => exact absurd rfl (h kind inner)
  | _ => exact ⟨rfl, rfl, rfl⟩

@[simp] theorem length_derefChain (t : Ty) : t.derefChain.length = t.layers + 1 := by
  fun_induction derefChain t with
  | case1 _ inner ih => simp [layers, ih]
  | case2 t h =>
    obtain ⟨-, hlayers, -⟩ := bare_of_ne_borrow h
    simp [hlayers]

theorem getLast?_derefChain (t : Ty) : t.derefChain.getLast? = some t.stripped := by
  fun_induction derefChain t with
  | case1 _ inner ih => simp [List.getLast?_cons, ih, stripped]
  | case2 t h =>
    obtain ⟨-, -, hstripped⟩ := bare_of_ne_borrow h
    simp [hstripped]

end Ty
end BorrowLang
