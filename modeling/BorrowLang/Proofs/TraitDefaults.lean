import BorrowLang.Proofs.Runs
import BorrowLang.Report
import BorrowLang.Typed.Reborrow

/-!
The constants of traits that have a default. A program is reborrowed unless there is one, and the
first of them is the place of the error.
-/
namespace BorrowLang.Typed

def TraitItem.default? : TraitItem → Option Expr
  | method _ => none
  | const _ default => default

def traitDefaults (items : List (String × TraitItem)) : List Expr :=
  items.filterMap (·.2.default?)

mutual

/-- The defaults in an item, those of a module where the module occurs. -/
def Item.defaults : Item → List Expr
  | .traitDef items => traitDefaults items
  | .module ⟨items⟩ => itemDefaults items
  | .function _ | .static _ | .const _ | .struct _ | .enum _ | .typeAlias _ => []

def itemDefaults : List (String × Item) → List Expr
  | [] => []
  | (_, item) :: rest => item.defaults ++ itemDefaults rest

end

/-- The defaults of a program in the order in which its items are gone over. -/
def Program.defaults (p : Program) : List Expr := itemDefaults p.root.items

/-- The item stands in the module or in a module nested in it. -/
inductive Module.Holds : Module → Item → Prop
  | here {items : List (String × Item)} {name : String} {item : Item} :
    (name, item) ∈ items → Holds ⟨items⟩ item
  | nested {items : List (String × Item)} {name : String} {m : Module} {item : Item} :
    (name, .module m) ∈ items → m.Holds item → Holds ⟨items⟩ item

theorem mem_traitDefaults {items : List (String × TraitItem)} {d : Expr} :
    d ∈ traitDefaults items ↔ ∃ name type, (name, .const type (some d)) ∈ items := by
  rw [traitDefaults, List.mem_filterMap]
  constructor
  · rintro ⟨⟨name, item⟩, hi, hd⟩
    cases item with
    | method body => contradiction
    | const type default =>
      obtain rfl : default = some d := hd
      exact ⟨name, type, hi⟩
  · rintro ⟨name, type, hi⟩
    exact ⟨_, hi, rfl⟩

theorem mem_itemDefaults {items : List (String × Item)} {d : Expr} :
    d ∈ itemDefaults items ↔ ∃ entry ∈ items, d ∈ entry.2.defaults := by
  induction items with
  | nil => simp [itemDefaults]
  | cons entry rest ih => simp [itemDefaults, ih]

mutual

theorem Item.holds_of_mem_defaults : ∀ {item : Item} {d : Expr}, d ∈ item.defaults →
    ∃ items, d ∈ traitDefaults items ∧
      (item = .traitDef items ∨ ∃ m, item = .module m ∧ m.Holds (.traitDef items))
  | .traitDef items, _, h => ⟨items, h, .inl rfl⟩
  | .module ⟨items⟩, _, h => by
    obtain ⟨held, hd, hheld⟩ := holds_of_mem_itemDefaults h
    exact ⟨held, hd, .inr ⟨_, rfl, hheld⟩⟩

theorem holds_of_mem_itemDefaults : ∀ {items : List (String × Item)} {d : Expr},
    d ∈ itemDefaults items → ∃ held, d ∈ traitDefaults held ∧ Module.Holds ⟨items⟩ (.traitDef held)
  | (name, item) :: rest, d, h => by
    rw [itemDefaults, List.mem_append] at h
    rcases h with h | h
    · obtain ⟨held, hd, rfl | ⟨m, rfl, hm⟩⟩ := Item.holds_of_mem_defaults h
      · exact ⟨held, hd, .here (.head _)⟩
      · exact ⟨held, hd, .nested (.head _) hm⟩
    · obtain ⟨held, hd, hheld⟩ := holds_of_mem_itemDefaults h
      cases hheld with
      | here hi => exact ⟨held, hd, .here (.tail _ hi)⟩
      | nested hi hm => exact ⟨held, hd, .nested (.tail _ hi) hm⟩

end

theorem Module.Holds.mem_itemDefaults {m : Module} {held : List (String × TraitItem)} {d : Expr}
    (h : m.Holds (.traitDef held)) (hd : d ∈ traitDefaults held) : d ∈ itemDefaults m.items := by
  generalize hitem : Item.traitDef held = item at h
  induction h with
  | here hi =>
    subst hitem
    exact Typed.mem_itemDefaults.mpr ⟨_, hi, hd⟩
  | @nested _ _ m _ hi _ ih =>
    obtain ⟨items⟩ := m
    exact Typed.mem_itemDefaults.mpr ⟨_, hi, ih hitem⟩

/-- A default is somewhere in the order exactly if it is that of a trait of the program. -/
theorem Program.mem_defaults {p : Program} {d : Expr} : d ∈ p.defaults ↔
    ∃ items name type, p.root.Holds (.traitDef items) ∧ (name, .const type (some d)) ∈ items := by
  obtain ⟨⟨items⟩, impls⟩ := p
  constructor
  · intro h
    obtain ⟨items, hd, hheld⟩ := holds_of_mem_itemDefaults h
    obtain ⟨name, type, hi⟩ := mem_traitDefaults.mp hd
    exact ⟨items, name, type, hheld, hi⟩
  · rintro ⟨items, name, type, hheld, hi⟩
    exact hheld.mem_itemDefaults (mem_traitDefaults.mpr ⟨name, type, hi⟩)

/-! ### The error -/

/-- The reason to refuse a program with this default. -/
def Expr.outOfPlace (d : Expr) : Error :=
  .invariantViolation "free-standing expression reached the reborrow pass" d.span

/-- What a computation gives that meets these defaults one after another. -/
def StopsAt {α : Type} (ds : List Expr) : Result α → Prop
  | .ok _ => ds = []
  | .error e => ds.head?.map Expr.outOfPlace = some e

section
variable {α β : Type} {ds ds' : List Expr} {x : Result α} {f : α → Result β}

theorem StopsAt.bind (hx : StopsAt ds x) (hf : ∀ a, StopsAt ds' (f a)) :
    StopsAt (ds ++ ds') (x >>= f) := by
  cases x with
  | ok a =>
    obtain rfl : ds = [] := hx
    exact hf a
  | error e =>
    cases ds with
    | nil => contradiction
    | cons d ds => exact hx

theorem StopsAt.map (hx : StopsAt ds x) (g : α → β) : StopsAt ds (x >>= fun a => pure (g a)) := by
  have hpure (a : α) : StopsAt [] (pure (g a) : Result β) := rfl
  have h := hx.bind hpure
  rwa [List.append_nil] at h

end

theorem TraitItem.stopsAt : ∀ item : TraitItem, StopsAt item.default?.toList item.reborrows
  | method _ => rfl
  | const _ none => rfl
  | const _ (some _) => rfl

theorem traitReborrows_stopsAt (items : List (String × TraitItem)) :
    StopsAt (traitDefaults items) (traitReborrows items) := by
  induction items with
  | nil => rfl
  | cons entry rest ih =>
    obtain ⟨name, item⟩ := entry
    have hsplit : traitDefaults ((name, item) :: rest) =
        item.default?.toList ++ traitDefaults rest := by
      cases hd : item.default? <;> simp [traitDefaults, hd]
    rw [hsplit, traitReborrows, List.mapM_cons]
    exact (item.stopsAt.map (name, ·)).bind fun after => ih.map (after :: ·)

mutual

theorem Item.stopsAt : ∀ item : Item, StopsAt item.defaults item.reborrows
  | .traitDef items => (traitReborrows_stopsAt items).map _
  | .module ⟨items⟩ => (itemReborrows_stopsAt items).map _
  | .function _ | .static _ | .const _ | .struct _ | .enum _ | .typeAlias _ => rfl

theorem itemReborrows_stopsAt : ∀ items : List (String × Item),
    StopsAt (itemDefaults items) (itemReborrows items)
  | [] => rfl
  | (_, item) :: rest => item.stopsAt.bind fun _ => (itemReborrows_stopsAt rest).map _

end

theorem Program.stopsAt (p : Program) : StopsAt p.defaults p.reborrows :=
  (itemReborrows_stopsAt p.root.items).map _

/-- Reborrowing fails exactly for the programs in which a trait, in the root module or in a module
nested in it, has a constant with a default. The error marks the first such default. -/
theorem Program.reborrows_error_iff (p : Program) :
    ((∃ e, p.reborrows = .error e) ↔ ∃ items name type d,
      p.root.Holds (.traitDef items) ∧ (name, .const type (some d)) ∈ items) ∧
    ∀ e, p.reborrows = .error e → ∃ d, p.defaults.head? = some d ∧
      (∃ message, e = .invariantViolation message d.span) ∧ e.marked.span = d.span := by
  have hstops := p.stopsAt
  have hfirst (e : Error) (he : p.reborrows = .error e) :
      ∃ d, p.defaults.head? = some d ∧ d.outOfPlace = e := by
    rw [he] at hstops
    exact Option.map_eq_some_iff.mp hstops
  refine ⟨⟨?_, ?_⟩, ?_⟩
  · rintro ⟨e, he⟩
    obtain ⟨d, hd, -⟩ := hfirst e he
    obtain ⟨items, name, type, hheld, hi⟩ := mem_defaults.mp (List.mem_of_mem_head? hd)
    exact ⟨items, name, type, d, hheld, hi⟩
  · rintro ⟨items, name, type, d, hheld, hi⟩
    have hd : d ∈ p.defaults := mem_defaults.mpr ⟨items, name, type, hheld, hi⟩
    cases hrun : p.reborrows with
    | error e => exact ⟨e, rfl⟩
    | ok after =>
      rw [hrun] at hstops
      exact absurd hd (List.eq_nil_iff_forall_not_mem.mp hstops d)
  · intro e he
    obtain ⟨d, hd, rfl⟩ := hfirst e he
    exact ⟨d, hd, ⟨_, rfl⟩, rfl⟩

/-- A module is entered where it occurs, before the traits that follow it. -/
example (t : Ty) (d e : Expr) : (Program.mk
    ⟨[("inner", .module ⟨[("T", .traitDef [("A", .const t (some d))])]⟩),
      ("U", .traitDef [("B", .const t (some e))])]⟩ []).reborrows = .error d.outOfPlace := rfl

end BorrowLang.Typed
