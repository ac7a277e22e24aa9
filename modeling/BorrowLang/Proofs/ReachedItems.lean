import BorrowLang.Names.Index
import BorrowLang.Symbols.Basic

/-!
The items of a program with the names that reach them. The index and the symbols are made by walks of
their own; each is read off the items one by one, in one order.
-/
namespace BorrowLang

/-- What the item is called in its module. -/
def Item.name? : Item → Option String
  | .function d => some d.name
  | .struct d => some d.name
  | .enum d => some d.name
  | .traitDef d => some d.name
  | .impl _ => none
  | .static d => some d.name
  | .typeAlias d => some d.name
  | .module m => some m.name

mutual

/-- The items of a module reached by the names `parents`, in order, a nested module just before what
it holds. Each comes with the names that reach it, an impl block with those of its module. -/
def Module.reached (parents : List String) : Module → List (List String × Item)
  | ⟨_, _, items⟩ => itemsReached parents items

def itemsReached (parents : List String) : List Item → List (List String × Item)
  | [] => []
  | item :: items =>
    (parents ++ item.name?.toList, item) ::
      (match item with
        | .module m => m.reached (parents ++ [m.name])
        | _ => [])
      ++ itemsReached parents items

end

/-- The items of a sort with their keys. -/
def keyed {α : Type} (items : List (List String × Item)) (sort : Item → Option α) :
    List (Key × α) :=
  items.filterMap fun e => (sort e.2).map (Key.ofNames e.1, ·)

@[simp] theorem keyed_cons {α : Type} (e : List String × Item) (items : List (List String × Item))
    (sort : Item → Option α) : keyed (e :: items) sort =
      ((sort e.2).map (Key.ofNames e.1, ·)).toList ++ keyed items sort := by
  rw [keyed, List.filterMap_cons]
  cases sort e.2 <;> rfl

@[simp] theorem keyed_append {α : Type} (items others : List (List String × Item))
    (sort : Item → Option α) : keyed (items ++ others) sort = keyed items sort ++ keyed others sort :=
  List.filterMap_append

/-- What the index keeps of the item. -/
def Item.kind? : Item → Option ItemKind
  | .function _ => some .function
  | .struct _ => some .structType
  | .enum d => some (.enumType (d.variants.map (·.name)))
  | .traitDef _ => some .traitItem
  | .impl _ => none
  | .static _ => some .staticItem
  | .typeAlias _ => some .typeAlias
  | .module _ => some .module

mutual

theorem Module.entries_eq_keyed : ∀ (m : Module) (parents : List String),
    m.entries parents = keyed (m.reached parents) Item.kind?
  | ⟨_, _, items⟩, parents => by
    rw [Module.entries, Module.reached]
    exact itemEntries_eq_keyed items parents

theorem itemEntries_eq_keyed : ∀ (items : List Item) (parents : List String),
    itemEntries parents items = keyed (itemsReached parents items) Item.kind?
  | [], _ => rfl
  | .module m :: items, parents => by
    simp [itemEntries, itemsReached, m.entries_eq_keyed, itemEntries_eq_keyed items, Item.kind?,
      Item.name?]
  | .function _ :: items, parents => congrArg (_ :: ·) (itemEntries_eq_keyed items parents)
  | .struct _ :: items, parents => congrArg (_ :: ·) (itemEntries_eq_keyed items parents)
  | .enum _ :: items, parents => congrArg (_ :: ·) (itemEntries_eq_keyed items parents)
  | .traitDef _ :: items, parents => congrArg (_ :: ·) (itemEntries_eq_keyed items parents)
  | .impl _ :: items, parents => itemEntries_eq_keyed items parents
  | .static _ :: items, parents => congrArg (_ :: ·) (itemEntries_eq_keyed items parents)
  | .typeAlias _ :: items, parents => congrArg (_ :: ·) (itemEntries_eq_keyed items parents)

end

namespace Symbols

/-- The symbols with what they keep of the item. -/
def enter (s : Symbols) : List String × Item → Symbols
  | (names, .function d) => { s with functions := s.functions.insert (.ofNames names) d.signature }
  | (names, .struct d) => { s with structs := s.structs.insert (.ofNames names) d }
  | (names, .enum d) => { s with enums := s.enums.insert (.ofNames names) d }
  | (_, .impl d) => { s with impls := s.impls ++ [d.signature] }
  | (names, .static d) => { s with statics := s.statics.insert (.ofNames names) d.type }
  | (names, .typeAlias d) => { s with aliases := s.aliases.insert (.ofNames names) d }
  | (_, .traitDef _) | (_, .module _) => s

mutual

theorem collect_eq_foldl : ∀ (m : Module) (parents : List String) (s : Symbols),
    collect parents s m = (m.reached parents).foldl enter s
  | ⟨_, _, items⟩, parents, s => by
    rw [collect, Module.reached]
    exact collectItems_eq_foldl items parents s

theorem collectItems_eq_foldl : ∀ (items : List Item) (parents : List String) (s : Symbols),
    collectItems parents s items = (itemsReached parents items).foldl enter s
  -- But for a module, both sides enter the item first and then go through the rest.
  | [], _, _ => rfl
  | .module m :: items, parents, s => by
    rw [itemsReached, List.cons_append, List.foldl_cons, List.foldl_append]
    change collectItems parents (collect (parents ++ [m.name]) s m) items = _
    rw [collectItems_eq_foldl items, collect_eq_foldl m]
    rfl
  | .function d :: items, parents, s => collectItems_eq_foldl items parents (s.enter (_, .function d))
  | .struct d :: items, parents, s => collectItems_eq_foldl items parents (s.enter (_, .struct d))
  | .enum d :: items, parents, s => collectItems_eq_foldl items parents (s.enter (_, .enum d))
  | .traitDef d :: items, parents, s => collectItems_eq_foldl items parents (s.enter (_, .traitDef d))
  | .impl d :: items, parents, s => collectItems_eq_foldl items parents (s.enter (_, .impl d))
  | .static d :: items, parents, s => collectItems_eq_foldl items parents (s.enter (_, .static d))
  | .typeAlias d :: items, parents, s =>
    collectItems_eq_foldl items parents (s.enter (_, .typeAlias d))

end

/-- A table in which the items of a sort are entered is made of their entries. -/
theorem table_foldl_enter {α : Type} {table : Symbols → Table α} {sort : Item → Option α}
    (henter : ∀ s names item, table (enter s (names, item)) =
      (sort item).elim (table s) ((table s).insert (Key.ofNames names)))
    (items : List (List String × Item)) (s : Symbols) : table (items.foldl enter s) =
      (keyed items sort).foldl (fun t e => t.insert e.1 e.2) (table s) := by
  induction items generalizing s with
  | nil => rfl
  | cons e items ih =>
    rw [List.foldl_cons, ih, henter, keyed_cons, List.foldl_append]
    cases sort e.2 <;> rfl

end Symbols

end BorrowLang
