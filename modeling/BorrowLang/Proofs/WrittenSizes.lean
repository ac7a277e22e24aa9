import BorrowLang.Proofs.ReborrowedNodes

/-!
The sizes of arrays in the types that a program writes are rewritten as the values of constants are,
but for those in the arguments of a path that an expression names or an impl block implements.
-/
namespace BorrowLang.Typed

mutual

/-- The sizes of the arrays that a type is made of. -/
def Ty.sizes : Ty → List Expr
  | .array inner size => inner.sizes ++ size.toList
  | .borrow _ inner => inner.sizes
  | .tuple items => tySizes items
  | .path ⟨_, args⟩ => tySizes args
  | .unit | .primitive _ | .generic _ => []

def tySizes : List Ty → List Expr
  | [] => []
  | t :: ts => t.sizes ++ tySizes ts

end

/-- The type that a local or a cast is given. -/
def ExprKind.types : ExprKind → List Ty
  | .letIn _ type _ => [type]
  | .cast _ target => [target]
  | _ => []

/-- The arguments of the item that a value or a call names. -/
def ExprKind.pathTypes : ExprKind → List Ty
  | .item path | .callPath path _ => path.args
  | _ => []

def Function.types (d : Function) : List Ty := d.args.map (·.2) ++ [d.ret]

def Variant.types : Variant → List Ty
  | unit | value _ => []
  | tuple types => types
  | fields types => types.map (·.2)

def TraitItem.types : TraitItem → List Ty
  | method body => body.types
  | const type _ => [type]

mutual

def Item.types : Item → List Ty
  | .function body => body.types
  | .static body | .const body => [body.type]
  | .struct fields => fields.map (·.2)
  | .enum variants => variants.flatMap (·.2.types)
  | .typeAlias target => [target]
  | .traitDef items => items.flatMap (·.2.types)
  | .module ⟨items⟩ => itemTypes items

def itemTypes : List (String × Item) → List Ty
  | [] => []
  | (_, item) :: rest => item.types ++ itemTypes rest

end

def Impl.types (d : Impl) : List Ty :=
  d.selfType :: (d.methods.flatMap (·.2.types) ++ d.consts.map (·.2.type))

def Impl.pathTypes (d : Impl) : List Ty := (d.traitPath.map (·.args)).getD []

/-- The types that items, impl blocks, locals and casts write, also those in the sizes of others. -/
def Program.types (p : Program) : List Ty :=
  itemTypes p.root.items ++ p.impls.flatMap Impl.types ++ parts ExprKind.types p.nodes

/-- The types that are written as arguments of the paths in expressions and of implemented traits. -/
def Program.pathTypes (p : Program) : List Ty :=
  p.impls.flatMap Impl.pathTypes ++ parts ExprKind.pathTypes p.nodes

/-- The second expression is the first as rewritten where it is the value of a constant. -/
def Expr.AsConstant (e e' : Expr) : Prop :=
  ∀ type, (Global.mk type (some e)).reborrows.value = some e'

/-- So is every size in the second type to the one in its place in the first. -/
def Ty.SizesAsConstants (t t' : Ty) : Prop := List.Forall₂ Expr.AsConstant t.sizes t'.sizes

theorem Expr.asConstant_reborrows (e : Expr) : e.AsConstant e.reborrows := fun _ => rfl

mutual

theorem Ty.sizes_reborrows : ∀ t : Ty, t.reborrows.sizes = t.sizes.map Expr.reborrows
  | .array inner none => by
    rw [Ty.reborrows, Ty.sizes, Ty.sizes, inner.sizes_reborrows, List.map_append]
    rfl
  | .array inner (some size) => by
    rw [Ty.reborrows, Ty.sizes, Ty.sizes, inner.sizes_reborrows, List.map_append]
    rfl
  | .borrow kind inner => by
    rw [Ty.reborrows, Ty.sizes, Ty.sizes, inner.sizes_reborrows]
  | .tuple items => by
    rw [Ty.reborrows, Ty.sizes, Ty.sizes, tySizes_reborrows items]
  | .path ⟨key, args⟩ => by
    rw [Ty.reborrows, Ty.sizes, Ty.sizes, tySizes_reborrows args]
  | .unit | .primitive _ | .generic _ => rfl

theorem tySizes_reborrows : ∀ ts : List Ty, tySizes (tyReborrows ts) = (tySizes ts).map Expr.reborrows
  | [] => rfl
  | t :: ts => by
    rw [tyReborrows, tySizes, tySizes, t.sizes_reborrows, tySizes_reborrows ts, List.map_append]

end

theorem Ty.sizesAsConstants_reborrows (t : Ty) : t.SizesAsConstants t.reborrows := by
  rw [SizesAsConstants, t.sizes_reborrows, List.forall₂_map_right_iff, List.forall₂_same]
  exact fun e _ => e.asConstant_reborrows

theorem tyReborrows_eq_map (ts : List Ty) : tyReborrows ts = ts.map Ty.reborrows := by
  induction ts with
  | nil => rfl
  | cons t ts ih => rw [tyReborrows, List.map_cons, ih]

theorem rewrites_types : Rewrites ExprKind.types Ty.reborrows where
  reborrows kind := by cases kind <;> rfl
  borrow _ _ := rfl
  deref _ := rfl

/-- The paths of expressions are not looked into. -/
theorem rewrites_pathTypes : Rewrites ExprKind.pathTypes id where
  reborrows kind := by
    rw [List.map_id]
    cases kind <;> rfl
  borrow _ _ := rfl
  deref _ := rfl

theorem map_snd_fieldReborrows (fields : List (String × Ty)) :
    (fieldReborrows fields).map (·.2) = (fields.map (·.2)).map Ty.reborrows := by
  rw [fieldReborrows, List.map_map, List.map_map]
  rfl

theorem Function.types_reborrows (d : Function) : d.reborrows.types = d.types.map Ty.reborrows := by
  rw [types, types, List.map_append]
  exact congrArg (· ++ [d.ret.reborrows]) (map_snd_fieldReborrows d.args)

theorem Variant.types_reborrows (v : Variant) : v.reborrows.types = v.types.map Ty.reborrows := by
  cases v with
  | unit | value discriminant => rfl
  | tuple types => exact tyReborrows_eq_map types
  | fields types => exact map_snd_fieldReborrows types

theorem TraitItem.types_of_reborrows : ∀ {item after : TraitItem}, item.reborrows = .ok after →
    after.types = item.types.map Ty.reborrows
  | .method body, _, h => by
    cases h
    exact body.types_reborrows
  | .const type none, _, h => by
    cases h
    rfl
  | .const _ (some _), _, h => by cases h

theorem types_of_traitReborrows {items after : List (String × TraitItem)}
    (h : traitReborrows items = .ok after) :
    after.flatMap (·.2.types) = (items.flatMap (·.2.types)).map Ty.reborrows := by
  induction items generalizing after with
  | nil =>
    cases h
    rfl
  | cons item rest ih =>
    obtain ⟨name, item⟩ := item
    simp only [traitReborrows, List.mapM_cons, Result.bind_eq_ok, Result.pure_eq_ok] at h
    obtain ⟨_, ⟨item, hi, rfl⟩, rest, hr, rfl⟩ := h
    rw [List.flatMap_cons, List.flatMap_cons, List.map_append, TraitItem.types_of_reborrows hi, ih hr]

/-- The types of named things, each rewritten with what it belongs to. -/
theorem flatMap_types_map {β : Type} {g : β → β} {types : β → List Ty}
    (hg : ∀ b, types (g b) = (types b).map Ty.reborrows) (bs : List (String × β)) :
    (bs.map fun (name, b) => (name, g b)).flatMap (types ·.2) =
      (bs.flatMap (types ·.2)).map Ty.reborrows := by
  rw [List.flatMap_map, List.map_flatMap]
  exact List.flatMap_congr fun b _ => hg b.2

mutual

theorem Item.types_of_reborrows : ∀ {item after : Item}, item.reborrows = .ok after →
    after.types = item.types.map Ty.reborrows
  | .function body, _, h => by
    cases h
    exact body.types_reborrows
  | .static body, _, h | .const body, _, h => by
    cases h
    rfl
  | .struct fields, _, h => by
    cases h
    exact map_snd_fieldReborrows fields
  | .enum variants, _, h => by
    cases h
    exact flatMap_types_map Variant.types_reborrows variants
  | .typeAlias target, _, h => by
    cases h
    rfl
  | .traitDef items, _, h => by
    simp only [Item.reborrows, Result.bind_eq_ok, Result.pure_eq_ok] at h
    obtain ⟨items, hi, rfl⟩ := h
    exact types_of_traitReborrows hi
  | .module ⟨items⟩, _, h => by
    simp only [Item.reborrows, Result.bind_eq_ok, Result.pure_eq_ok] at h
    obtain ⟨items, hi, rfl⟩ := h
    exact types_of_itemReborrows hi

theorem types_of_itemReborrows : ∀ {items after : List (String × Item)},
    itemReborrows items = .ok after → itemTypes after = (itemTypes items).map Ty.reborrows
  | [], _, h => by
    cases h
    rfl
  | (name, item) :: rest, _, h => by
    simp only [itemReborrows, Result.bind_eq_ok, Result.pure_eq_ok] at h
    obtain ⟨item, hi, rest, hr, rfl⟩ := h
    rw [itemTypes, itemTypes, List.map_append, Item.types_of_reborrows hi, types_of_itemReborrows hr]

end

theorem Impl.types_reborrows (d : Impl) : d.reborrows.types = d.types.map Ty.reborrows := by
  rw [Impl.reborrows, types, types, List.map_cons, List.map_append,
    flatMap_types_map Function.types_reborrows, List.map_map, List.map_map]
  rfl

/-- Every type outside the arguments of paths is rewritten, in its place. -/
theorem Program.types_of_reborrows {p after : Program} (h : p.reborrows = .ok after) :
    after.types = p.types.map Ty.reborrows := by
  have hparts := rewrites_types.program h
  simp only [Program.reborrows, Result.bind_eq_ok, Result.pure_eq_ok] at h
  obtain ⟨items, hi, rfl⟩ := h
  have himpls : (p.impls.map Impl.reborrows).flatMap Impl.types =
      (p.impls.flatMap Impl.types).map Ty.reborrows := by
    rw [List.flatMap_map, List.map_flatMap]
    exact List.flatMap_congr fun d _ => d.types_reborrows
  rw [types, types, List.map_append, List.map_append, hparts, himpls, types_of_itemReborrows hi]

theorem Program.pathTypes_of_reborrows {p after : Program} (h : p.reborrows = .ok after) :
    after.pathTypes = p.pathTypes := by
  have hparts := rewrites_pathTypes.program h
  simp only [Program.reborrows, Result.bind_eq_ok, Result.pure_eq_ok] at h
  obtain ⟨items, hi, rfl⟩ := h
  rw [pathTypes, pathTypes, hparts, List.map_id, List.flatMap_map]
  rfl

/-- An error that says that the program has an expression out of place. -/
def Misplaced (e : Error) : Prop := ∃ message span, e = .invariantViolation message span

theorem TraitItem.misplaced_of_reborrows : ∀ {item : TraitItem} {e : Error},
    item.reborrows = .error e → Misplaced e
  | .method _, _, h => by cases h
  | .const _ none, _, h => by cases h
  | .const _ (some _), _, h => by
    cases h
    exact ⟨_, _, rfl⟩

theorem misplaced_of_traitReborrows {items : List (String × TraitItem)} {e : Error}
    (h : traitReborrows items = .error e) : Misplaced e := by
  induction items with
  | nil => cases h
  | cons item rest ih =>
    simp only [traitReborrows, List.mapM_cons, Result.bind_eq_error] at h
    rcases h with (h | ⟨_, -, h⟩) | ⟨_, -, h | ⟨_, -, h⟩⟩
    · exact TraitItem.misplaced_of_reborrows h
    · cases h
    · exact ih h
    · cases h

mutual

theorem Item.misplaced_of_reborrows : ∀ {item : Item} {e : Error},
    item.reborrows = .error e → Misplaced e
  | .function _, _, h | .static _, _, h | .const _, _, h | .struct _, _, h | .enum _, _, h
  | .typeAlias _, _, h => by cases h
  | .traitDef items, _, h => by
    simp only [Item.reborrows, Result.bind_eq_error] at h
    rcases h with h | ⟨_, -, h⟩
    · exact misplaced_of_traitReborrows h
    · cases h
  | .module ⟨items⟩, _, h => by
    simp only [Item.reborrows, Result.bind_eq_error] at h
    rcases h with h | ⟨_, -, h⟩
    · exact misplaced_of_itemReborrows h
    · cases h

theorem misplaced_of_itemReborrows : ∀ {items : List (String × Item)} {e : Error},
    itemReborrows items = .error e → Misplaced e
  | [], _, h => by cases h
  | (name, item) :: rest, _, h => by
    simp only [itemReborrows, Result.bind_eq_error] at h
    rcases h with h | ⟨_, -, h | ⟨_, -, h⟩⟩
    · exact Item.misplaced_of_reborrows h
    · exact misplaced_of_itemReborrows h
    · cases h

end

theorem Program.misplaced_of_reborrows {p : Program} {e : Error} (h : p.reborrows = .error e) :
    Misplaced e := by
  simp only [Program.reborrows, Result.bind_eq_error] at h
  rcases h with h | ⟨_, -, h⟩
  · exact misplaced_of_itemReborrows h
  · cases h

/-- Reborrowing rewrites the sizes in the types of items, impl blocks, locals and casts as it
rewrites the values of constants. The arguments of the paths that expressions name and impl blocks
implement it leaves as they are. Where it fails, an expression is out of place. -/
theorem Program.reborrows_sizes (p : Program) :
    (∀ after, p.reborrows = .ok after →
      List.Forall₂ Ty.SizesAsConstants p.types after.types ∧ after.pathTypes = p.pathTypes) ∧
    ∀ e, p.reborrows = .error e → Misplaced e := by
  refine ⟨fun after h => ⟨?_, p.pathTypes_of_reborrows h⟩, fun e h => p.misplaced_of_reborrows h⟩
  rw [p.types_of_reborrows h, List.forall₂_map_right_iff, List.forall₂_same]
  exact fun t _ => t.sizesAsConstants_reborrows

/-- In source form, `fn g() { h::<[(); f(x)]>(k::<[(); f(x)]>); }` and `impl T<[(); f(x)]> for () {}`,
with a `&mut ()` for `x`, and `g` with such an array for argument. -/
def Program.sizedPaths : Program :=
  let sized : Ty := .array .unit (some .passOn)
  let value : Expr := ⟨default, .unit, .unknown, .item ⟨"::k", [sized]⟩⟩
  let call : Expr := ⟨default, .unit, .unknown, .callPath ⟨"::h", [sized]⟩ [value]⟩
  ⟨⟨[("g", .function ⟨[("cells", sized)], .unit, some call⟩)]⟩,
    [⟨some ⟨"::T", [sized]⟩, .unit, [], []⟩]⟩

/-- The size in the argument of the function is rewritten. -/
theorem Program.reborrows_sizes_sizedPaths : ∃ after, Program.sizedPaths.reborrows = .ok after ∧
    (Program.sizedPaths.types.flatMap Ty.sizes).length = 1 ∧
    (Program.sizedPaths.pathTypes.flatMap Ty.sizes).length = 3 ∧
    List.Forall₂ Ty.SizesAsConstants Program.sizedPaths.types after.types ∧
    after.pathTypes = Program.sizedPaths.pathTypes :=
  ⟨_, rfl, rfl, rfl, (Program.reborrows_sizes .sizedPaths).1 _ rfl⟩

/-- The sizes in the arguments of paths are not, though the value of a constant would be. -/
theorem Program.reborrows_skips_pathTypes :
    ∃ after, Program.sizedPaths.reborrows = .ok after ∧
      ¬ List.Forall₂ Ty.SizesAsConstants (Program.sizedPaths.types ++ Program.sizedPaths.pathTypes)
        (after.types ++ after.pathTypes) := by
  refine ⟨_, rfl, fun h => ?_⟩
  have hskipped : Expr.AsConstant .passOn .passOn := by
    cases h with
    | cons _ h =>
      cases h with
      | cons _ h =>
        cases h with
        | cons _ h =>
          cases h with
          | cons h _ =>
            cases h with
            | cons h _ => exact h
  have hsame : Expr.passOn.reborrows = .passOn := Option.some.inj (hskipped .unit)
  have hlen : Expr.passOn.reborrows.nodes.length = Expr.passOn.nodes.length :=
    congrArg (·.nodes.length) hsame
  exact absurd hlen (by decide)

end BorrowLang.Typed
