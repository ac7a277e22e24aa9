import BorrowLang.Proofs.Denotation
import BorrowLang.Proofs.PlainNames

/-!
What the index and the symbols of a program have under a key is what is declared under the names in
it: where all names are plain, no two items share a key unless they share their names.
-/
namespace BorrowLang

/-- The last of the items that has the names and is of the sort. -/
def lastOf? {α : Type} (items : List (List String × Item)) (names : List String)
    (sort : Item → Option α) : Option α :=
  items.reverse.findSome? fun e => if names = e.1 then sort e.2 else none

/-- Where no two names are joined in one key, the items are found by key as they are by name. -/
theorem lookup_keyed {α : Type} {names : List String} {items : List (List String × Item)}
    (hnames : ∀ name ∈ names, PlainName name) (hitems : ∀ e ∈ items, ∀ name ∈ e.1, PlainName name)
    (sort : Item → Option α) : (keyed items sort).lookup (Key.ofNames names) =
      items.findSome? fun e => if names = e.1 then sort e.2 else none := by
  induction items with
  | nil => rfl
  | cons e items ih =>
    obtain ⟨he, hitems⟩ := List.forall_mem_cons.mp hitems
    have hkey : Key.ofNames names = Key.ofNames e.1 ↔ names = e.1 := Key.ofNames_inj hnames he
    rw [keyed_cons, List.findSome?_cons, ← ih hitems]
    cases sort e.2 with
    | none => simp
    | some value =>
      have hget := Table.get?_cons (keyed items sort) (Key.ofNames names) (Key.ofNames e.1) value
      simp only [hkey] at hget
      refine hget.trans ?_
      split <;> rfl

theorem lookup_reverse_keyed {α : Type} {names : List String} {items : List (List String × Item)}
    (hnames : ∀ name ∈ names, PlainName name) (hitems : ∀ e ∈ items, ∀ name ∈ e.1, PlainName name)
    (sort : Item → Option α) :
    (keyed items sort).reverse.lookup (Key.ofNames names) = lastOf? items names sort := by
  rw [keyed, ← List.filterMap_reverse]
  exact lookup_keyed hnames (fun e he => hitems e (List.mem_reverse.mp he)) sort

namespace Item

def struct? : Item → Option StructDef
  | struct d => some d
  | _ => none

def enum? : Item → Option EnumDef
  | enum d => some d
  | _ => none

def static? : Item → Option Ty
  | static d => some d.type
  | _ => none

def signature? : Item → Option Signature
  | function d => some d.signature
  | _ => none

def alias? : Item → Option AliasDef
  | typeAlias d => some d
  | _ => none

end Item

/-- Under the key of the names the symbols have what the last item of each sort with these names
declares, aliases expanded, and nothing where there is no such item. -/
structure Symbols.DeclaredAt (s : Symbols) (root : Module) (names : List String) : Prop where
  structs : Option.Rel (fun d d' => s.aliases.expandStruct d = .ok d')
    (lastOf? (root.reached []) names Item.struct?) (s.structs.get? (Key.ofNames names))
  enums : Option.Rel (fun d d' => s.aliases.expandEnum d = .ok d')
    (lastOf? (root.reached []) names Item.enum?) (s.enums.get? (Key.ofNames names))
  statics : Option.Rel (fun t t' => s.aliases.expand default t = .ok t')
    (lastOf? (root.reached []) names Item.static?) (s.statics.get? (Key.ofNames names))
  functions : Option.Rel (fun f f' => s.aliases.expandSignature default f = .ok f')
    (lastOf? (root.reached []) names Item.signature?) (s.functions.get? (Key.ofNames names))
  aliases : s.aliases.get? (Key.ofNames names) = lastOf? (root.reached []) names Item.alias?

/-- All names in the tree are plain; that of the root itself is part of no key. -/
def Module.Plain (root : Module) : Prop := ∀ e ∈ root.reached [], ∀ name ∈ e.1, PlainName name

instance (root : Module) : Decidable root.Plain :=
  inferInstanceAs (Decidable (∀ e ∈ root.reached [], ∀ name ∈ e.1, PlainName name))

namespace Module.Plain
variable {root : Module} {names : List String}

theorem index_find? (hroot : root.Plain) (hnames : ∀ name ∈ names, PlainName name) :
    (Index.ofModule root).find? (Key.ofNames names) = lastOf? (root.reached []) names Item.kind? := by
  rw [Index.find?, Index.ofModule, entries_eq_keyed]
  exact lookup_reverse_keyed hnames hroot Item.kind?

theorem declaredAt (hroot : root.Plain) (hnames : ∀ name ∈ names, PlainName name) {s : Symbols}
    (h : Symbols.ofModule root = .ok s) : s.DeclaredAt root names := by
  have hget {α : Type} (table : Symbols → Table α) (sort : Item → Option α)
      (hempty : table .empty = []) (henter : ∀ s names item, table (.enter s (names, item)) =
        (sort item).elim (table s) ((table s).insert (Key.ofNames names))) :
      (table (Symbols.collect [] .empty root)).get? (Key.ofNames names) =
        lastOf? (root.reached []) names sort := by
    rw [Symbols.collect_eq_foldl, Symbols.table_foldl_enter henter, hempty, Table.get?_foldl_insert,
      Table.get?_nil, Option.or_none]
    exact lookup_reverse_keyed hnames hroot sort
  simp only [Symbols.ofModule, Symbols.expandAliases, Result.bind_eq_ok, Result.pure_eq_ok] at h
  obtain ⟨structs, hs, enums, hen, statics, hst, functions, hf, impls, -, rfl⟩ := h
  constructor
  case structs =>
    rw [← hget (·.structs) Item.struct? rfl fun _ _ item => by cases item <;> rfl]
    exact Table.rel_get?_mapValuesM hs _
  case enums =>
    rw [← hget (·.enums) Item.enum? rfl fun _ _ item => by cases item <;> rfl]
    exact Table.rel_get?_mapValuesM hen _
  case statics =>
    rw [← hget (·.statics) Item.static? rfl fun _ _ item => by cases item <;> rfl]
    exact Table.rel_get?_mapValuesM hst _
  case functions =>
    rw [← hget (·.functions) Item.signature? rfl fun _ _ item => by cases item <;> rfl]
    exact Table.rel_get?_mapValuesM hf _
  case aliases => exact hget (·.aliases) Item.alias? rfl fun _ _ item => by cases item <;> rfl

end Module.Plain

/-- Keys tell apart what names tell apart. Two plain paths have the same key exactly when they are of
the same item, and the key of an absolute path is that of its names. So an impl block of a trait is
found by the trait, a value is taken apart as the item it is of, and what a program has under a key is
what it declares under the names. -/
theorem Path.keys_tell_items_apart {p q : Path} (hp : p.Plain) (hq : q.Plain) :
    (p.key = q.key ↔ p.sameItem q = true) ∧
    (p.absolute = true → Key.ofNames p.names = p.key) ∧
    (∀ (s : Symbols) (t : Ty), (∀ d ∈ s.impls, ∀ r ∈ d.traitPath, r.Plain) → s.impl? (some p) t =
      s.impls.find? fun d => d.traitPath.any p.sameItem && (d.bindSelf? t).isSome) ∧
    (∀ (t : Ty) (span : Span), t.stripped = .path q → t.argsOf p.key span =
      if p.sameItem q then .ok q.lastArgs else .error (.typeMismatch p.key q.display span)) ∧
    ∀ root : Module, root.Plain → p.absolute = true →
      (Index.ofModule root).find? p.key = lastOf? (root.reached []) p.names Item.kind? ∧
      ∀ s, Symbols.ofModule root = .ok s → s.DeclaredAt root p.names := by
  refine ⟨key_eq_iff_sameItem hp hq, fun ha => (key_of_absolute ha).symm,
    fun s t hs => s.impl?_some t hp hs, fun t span ht => Ty.argsOf_key hp hq ht span,
    fun root hroot ha => ⟨?_, fun s hs => hroot.declaredAt hp hs⟩⟩
  rw [key_of_absolute ha]
  exact hroot.index_find? hp

/-- In source form, `trait Point; mod geo { struct Point; impl ::Point for Point {} }`. -/
def Module.namesakes : Module :=
  let point : Ty := .path ⟨true, [⟨"geo", []⟩, ⟨"Point", []⟩], .structType "::geo::Point"⟩
  let geo : Module := ⟨"geo", [], [
    .struct ⟨"Point", ⟨[], []⟩, [], default⟩,
    .impl ⟨⟨[], []⟩, some ⟨true, [⟨"Point", []⟩], .traitItem "::Point"⟩, point, [], default⟩]⟩
  ⟨"", [], [.traitDef ⟨"Point", ⟨[], []⟩, [], default⟩, .module geo]⟩

/-- The struct and the trait of that module: a value of the one is not taken apart as the other, the
impl block is not of the struct, and under the key of the struct is nothing but the struct. -/
theorem Path.keys_tell_items_apart_namesakes :
    let inner := ofNames true ["geo", "Point"]
    let outer := ofNames true ["Point"]
    inner.Plain ∧ outer.Plain ∧ inner.absolute = true ∧ Module.namesakes.Plain ∧
    inner.key ≠ outer.key ∧ Key.ofNames ["geo", "Point"] = inner.key ∧
    (Ty.borrow .shared (.path outer)).argsOf inner.key default =
      .error (.typeMismatch inner.key outer.display default) ∧
    (Index.ofModule .namesakes).find? inner.key = some .structType ∧
    ∃ s, Symbols.ofModule .namesakes = .ok s ∧ (∀ d ∈ s.impls, ∀ r ∈ d.traitPath, r.Plain) ∧
      s.impl? (some inner) (.path inner) = none ∧ s.DeclaredAt .namesakes ["geo", "Point"] := by
  intro inner outer
  have hinner : inner.Plain := by decide
  have houter : outer.Plain := by decide
  have hroot : Module.namesakes.Plain := by decide
  obtain ⟨hkey, hnames, himpl, hargs, hroots⟩ := keys_tell_items_apart hinner houter
  obtain ⟨hindex, hdeclared⟩ := hroots .namesakes hroot rfl
  have hne : inner.key ≠ outer.key := fun h => absurd (hkey.mp h) (by decide)
  refine ⟨hinner, houter, rfl, hroot, hne, hnames rfl, hargs _ default rfl, hindex.trans rfl, ?_⟩
  obtain ⟨s, hs, hplain, hnone⟩ : ∃ s, Symbols.ofModule .namesakes = .ok s ∧
      (∀ d ∈ s.impls, ∀ r ∈ d.traitPath, r.Plain) ∧
      (s.impls.find? fun d => d.traitPath.any inner.sameItem &&
        (d.bindSelf? (.path inner)).isSome) = none := ⟨_, rfl, by decide, rfl⟩
  exact ⟨s, hs, hplain, (himpl s _ hplain).trans hnone, hdeclared s hs⟩

end BorrowLang
