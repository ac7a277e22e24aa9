import BorrowLang.Syntax.Item

/-! Which keys of a module tree are taken, and by what. -/
namespace BorrowLang

inductive ItemKind
  | module
  | structType
  | enumType (variants : List String)
  | traitItem
  | function
  | staticItem
  | typeAlias

/-- What a path to an item with this key is bound to; a module is no item to name. -/
def ItemKind.binding? (key : Key) : ItemKind → Option Binding
  | module => none
  | structType => some (.structType key)
  | enumType _ => some (.enumType key)
  | traitItem => some (.traitItem key)
  | function => some (.function key)
  | staticItem => some (.staticItem key)
  | typeAlias => some (.typeAlias key)

mutual

/-- The items of a module reached by the names `parents`, in order, a nested module just before
what it holds. Impl blocks have no key. -/
def Module.entries (parents : List String) : Module → List (Key × ItemKind)
  | ⟨_, _, items⟩ => itemEntries parents items

def itemEntries (parents : List String) : List Item → List (Key × ItemKind)
  | [] => []
  | item :: items =>
    let here (name : String) (kind : ItemKind) := (Key.ofNames (parents ++ [name]), kind)
    (match item with
      | .function d => [here d.name .function]
      | .struct d => [here d.name .structType]
      | .enum d => [here d.name (.enumType (d.variants.map (·.name)))]
      | .traitDef d => [here d.name .traitItem]
      | .impl _ => []
      | .static d => [here d.name .staticItem]
      | .typeAlias d => [here d.name .typeAlias]
      | .module m => here m.name .module :: m.entries (parents ++ [m.name]))
      ++ itemEntries parents items

end

/-- The items of a program by key. -/
structure Index where
  entries : List (Key × ItemKind)

namespace Index

/-- The names of the root module itself are not part of any key. -/
def ofModule (root : Module) : Index := ⟨root.entries []⟩

/-- The last item with this key. -/
def find? (index : Index) (key : Key) : Option ItemKind := index.entries.reverse.lookup key

/-- What the absolute path of these names is bound to: an item, or else a variant of the enum its
parent names. -/
def binding? (index : Index) (names : List String) : Option Binding :=
  match index.find? (Key.ofNames names) with
  | some kind => kind.binding? (Key.ofNames names)
  | none =>
    match names.getLast? with
    | none => none
    | some last =>
      match index.find? (Key.ofNames names.dropLast) with
      | some (.enumType variants) =>
        (variants.findIdx? (· == last)).map (.variant (Key.ofNames names.dropLast))
      | _ => none

end Index
end BorrowLang
