import BorrowLang.Proofs.Runs
import BorrowLang.Typed.Reborrow

/-! After reborrowing no place gives away the `&mut` it holds. -/
namespace BorrowLang.Typed

mutual

/-- The expressions in the sizes of the arrays inside. -/
def Ty.nodes : Ty → List Expr
  | .array inner none => inner.nodes
  | .array inner (some size) => inner.nodes ++ size.nodes
  | .borrow _ inner => inner.nodes
  | .tuple items => tyNodes items
  | .path ⟨_, args⟩ => tyNodes args
  | .unit | .primitive _ | .generic _ => []

def tyNodes : List Ty → List Expr
  | [] => []
  | t :: ts => t.nodes ++ tyNodes ts

/-- The expression and every expression inside it, those in the types it writes included. Neither the
type found for an expression nor the arguments of a path are written types. -/
def Expr.nodes : Expr → List Expr
  | ⟨span, type, usage, kind⟩ => ⟨span, type, usage, kind⟩ :: kind.nodes

def ExprKind.nodes : ExprKind → List Expr
  | .block statements tail => exprNodes statements ++ optionNodes tail
  | .letIn _ type value => type.nodes ++ optionNodes value
  | .assign place value => place.nodes ++ value.nodes
  | .ret value => optionNodes value
  | .cond condition thenBranch elseBranch =>
    condition.nodes ++ thenBranch.nodes ++ optionNodes elseBranch
  | .matchOn value arms => value.nodes ++ armNodes arms
  | .borrow _ value => value.nodes
  | .deref value => value.nodes
  | .index value index => value.nodes ++ index.nodes
  | .field value _ => value.nodes
  | .localVar .. | .item _ | .literal _ => []
  | .cast value target => value.nodes ++ target.nodes
  | .tuple items => exprNodes items
  | .callPath _ args => exprNodes args
  | .callValue callee args => callee.nodes ++ exprNodes args
  | .callMethod receiver _ args => receiver.nodes ++ exprNodes args
  | .binary _ left right => left.nodes ++ right.nodes

def optionNodes : Option Expr → List Expr
  | none => []
  | some e => e.nodes

def exprNodes : List Expr → List Expr
  | [] => []
  | e :: es => e.nodes ++ exprNodes es

def armNodes : List Arm → List Expr
  | [] => []
  | ⟨guard, code⟩ :: rest => optionNodes guard ++ code.nodes ++ armNodes rest

end

def Function.nodes (d : Function) : List Expr :=
  d.args.flatMap (·.2.nodes) ++ d.ret.nodes ++ optionNodes d.code

def Global.nodes (d : Global) : List Expr := d.type.nodes ++ optionNodes d.value

def Variant.nodes : Variant → List Expr
  | unit => []
  | value discriminant => discriminant.nodes
  | tuple types => tyNodes types
  | fields types => types.flatMap (·.2.nodes)

def TraitItem.nodes : TraitItem → List Expr
  | method body => body.nodes
  | const type default => type.nodes ++ optionNodes default

mutual

def Item.nodes : Item → List Expr
  | .function body => body.nodes
  | .static body | .const body => body.nodes
  | .struct fields => fields.flatMap (·.2.nodes)
  | .enum variants => variants.flatMap (·.2.nodes)
  | .typeAlias target => target.nodes
  | .traitDef items => items.flatMap (·.2.nodes)
  | .module ⟨items⟩ => itemNodes items

def itemNodes : List (String × Item) → List Expr
  | [] => []
  | (_, item) :: rest => item.nodes ++ itemNodes rest

end

/-- The trait of an impl block is a path, not a type. -/
def Impl.nodes (d : Impl) : List Expr :=
  d.selfType.nodes ++ d.methods.flatMap (·.2.nodes) ++ d.consts.flatMap (·.2.nodes)

def Program.nodes (p : Program) : List Expr := itemNodes p.root.items ++ p.impls.flatMap Impl.nodes

/-- The values that an expression assigns or passes, a receiver and a callee not among them. -/
def ExprKind.given : ExprKind → List Expr
  | .assign _ value => [value]
  | .callPath _ args | .callValue _ args | .callMethod _ _ args => args
  | _ => []

/-- A place whose own value is a `&mut`. -/
def Expr.HoldsUnique (e : Expr) : Prop :=
  e.isPlace = true ∧ ∃ inner, e.type = .borrow .unique inner

/-- No `&mut` is taken out of a place by an assignment or a call. -/
def Settled (nodes : List Expr) : Prop := ∀ e ∈ nodes, ∀ x ∈ e.kind.given, ¬x.HoldsUnique

@[simp] theorem settled_nil : Settled [] := by simp [Settled]

@[simp] theorem settled_append (es fs : List Expr) :
    Settled (es ++ fs) ↔ Settled es ∧ Settled fs := List.forall_mem_append

@[simp] theorem settled_cons (e : Expr) (es : List Expr) :
    Settled (e :: es) ↔ (∀ x ∈ e.kind.given, ¬x.HoldsUnique) ∧ Settled es := List.forall_mem_cons

theorem settled_flatMap {α : Type} {f : α → List Expr} {xs : List α}
    (h : ∀ x ∈ xs, Settled (f x)) : Settled (xs.flatMap f) := by
  intro e he
  obtain ⟨x, hx, hmem⟩ := List.mem_flatMap.mp he
  exact h x hx e hmem

/-- A rewriting of named parts settles them all when it settles each. -/
theorem settled_flatMap_map {α β : Type} {f : β → List Expr} {g : α → β}
    (h : ∀ x, Settled (f (g x))) (parts : List (String × α)) :
    Settled ((parts.map fun (name, x) => (name, g x)).flatMap (f ·.2)) := by
  rw [List.flatMap_map]
  exact settled_flatMap fun part _ => h part.2

namespace Expr

theorem reborrow_of_holdsUnique {e : Expr} {inner : Ty} (hp : e.isPlace = true)
    (ht : e.type = .borrow .unique inner) :
    e.reborrow = ⟨e.span, e.type, e.usage, .borrow .unique ⟨e.span, inner, .unknown, .deref e⟩⟩ := by
  rw [reborrow, hp, ht]

theorem reborrow_eq_self {e : Expr} (h : ¬e.HoldsUnique) : e.reborrow = e := by
  unfold reborrow
  split
  next inner hp ht => exact absurd ⟨ht, inner, hp⟩ h
  next => rfl

/-- The new borrow is no place. -/
theorem not_holdsUnique_reborrow (e : Expr) : ¬e.reborrow.HoldsUnique := by
  by_cases h : e.HoldsUnique
  · obtain ⟨hp, inner, ht⟩ := h
    rw [reborrow_of_holdsUnique hp ht]
    rintro ⟨hplace, -⟩
    exact absurd hplace Bool.false_ne_true
  · rwa [reborrow_eq_self h]

/-- The two new nodes give nothing away. -/
theorem settled_nodes_reborrow (e : Expr) : Settled e.reborrow.nodes ↔ Settled e.nodes := by
  by_cases h : e.HoldsUnique
  · obtain ⟨hp, inner, ht⟩ := h
    rw [reborrow_of_holdsUnique hp ht]
    simp [nodes, ExprKind.nodes, ExprKind.given]
  · rw [reborrow_eq_self h]

end Expr

theorem not_holdsUnique_of_mem_argReborrows {args : List Expr} :
    ∀ x ∈ argReborrows args, ¬x.HoldsUnique := by
  induction args with
  | nil => simp [argReborrows]
  | cons e es ih =>
    rw [argReborrows, List.forall_mem_cons]
    exact ⟨e.reborrows.not_holdsUnique_reborrow, ih⟩

/-- Whatever the rewritten expression gives was borrowed again. -/
theorem ExprKind.not_holdsUnique_of_mem_given (kind : ExprKind) :
    ∀ x ∈ kind.reborrows.given, ¬x.HoldsUnique := by
  cases kind with
  | assign place value =>
    intro x hx
    rw [reborrows, given, List.mem_singleton] at hx
    rw [hx]
    exact value.reborrows.not_holdsUnique_reborrow
  | callPath path args | callValue callee args | callMethod receiver method args =>
    rw [reborrows, given]
    exact not_holdsUnique_of_mem_argReborrows
  | _ => simp [reborrows, given]

mutual

theorem Ty.settled_reborrows : ∀ t : Ty, Settled t.reborrows.nodes
  | .array inner none => by
    rw [Ty.reborrows, Ty.nodes]
    exact inner.settled_reborrows
  | .array inner (some size) => by
    rw [Ty.reborrows, Ty.nodes, settled_append]
    exact ⟨inner.settled_reborrows, size.settled_reborrows⟩
  | .borrow kind inner => by
    rw [Ty.reborrows, Ty.nodes]
    exact inner.settled_reborrows
  | .tuple items => by
    rw [Ty.reborrows, Ty.nodes]
    exact settled_tyReborrows items
  | .path ⟨key, args⟩ => by
    rw [Ty.reborrows, Ty.nodes]
    exact settled_tyReborrows args
  | .unit | .primitive _ | .generic _ => settled_nil

theorem settled_tyReborrows : ∀ ts : List Ty, Settled (tyNodes (tyReborrows ts))
  | [] => settled_nil
  | t :: ts => by
    rw [tyReborrows, tyNodes, settled_append]
    exact ⟨t.settled_reborrows, settled_tyReborrows ts⟩

theorem Expr.settled_reborrows : ∀ e : Expr, Settled e.reborrows.nodes
  | ⟨span, type, usage, kind⟩ => by
    rw [Expr.reborrows, Expr.nodes, settled_cons]
    exact ⟨kind.not_holdsUnique_of_mem_given, kind.settled_reborrows⟩

theorem ExprKind.settled_reborrows : ∀ kind : ExprKind, Settled kind.reborrows.nodes
  | .block statements tail => by
    rw [ExprKind.reborrows, ExprKind.nodes, settled_append]
    exact ⟨settled_exprReborrows statements, settled_optionReborrows tail⟩
  | .letIn name type value => by
    rw [ExprKind.reborrows, ExprKind.nodes, settled_append]
    exact ⟨type.settled_reborrows, settled_optionReborrows value⟩
  | .assign place value => by
    rw [ExprKind.reborrows, ExprKind.nodes, settled_append, Expr.settled_nodes_reborrow]
    exact ⟨place.settled_reborrows, value.settled_reborrows⟩
  | .ret value => by
    rw [ExprKind.reborrows, ExprKind.nodes]
    exact settled_optionReborrows value
  | .cond condition thenBranch elseBranch => by
    rw [ExprKind.reborrows, ExprKind.nodes, settled_append, settled_append]
    exact ⟨⟨condition.settled_reborrows, thenBranch.settled_reborrows⟩,
      settled_optionReborrows elseBranch⟩
  | .matchOn value arms => by
    rw [ExprKind.reborrows, ExprKind.nodes, settled_append]
    exact ⟨value.settled_reborrows, settled_armReborrows arms⟩
  | .borrow _ value | .deref value | .field value _ => by
    rw [ExprKind.reborrows, ExprKind.nodes]
    exact value.settled_reborrows
  | .index value index => by
    rw [ExprKind.reborrows, ExprKind.nodes, settled_append]
    exact ⟨value.settled_reborrows, index.settled_reborrows⟩
  | .localVar _ _ | .item _ | .literal _ => settled_nil
  | .cast value target => by
    rw [ExprKind.reborrows, ExprKind.nodes, settled_append]
    exact ⟨value.settled_reborrows, target.settled_reborrows⟩
  | .tuple items => by
    rw [ExprKind.reborrows, ExprKind.nodes]
    exact settled_exprReborrows items
  | .callPath path args => by
    rw [ExprKind.reborrows, ExprKind.nodes]
    exact settled_argReborrows args
  | .callValue callee args => by
    rw [ExprKind.reborrows, ExprKind.nodes, settled_append]
    exact ⟨callee.settled_reborrows, settled_argReborrows args⟩
  | .callMethod receiver method args => by
    rw [ExprKind.reborrows, ExprKind.nodes, settled_append]
    exact ⟨receiver.settled_reborrows, settled_argReborrows args⟩
  | .binary op left right => by
    rw [ExprKind.reborrows, ExprKind.nodes, settled_append]
    exact ⟨left.settled_reborrows, right.settled_reborrows⟩

theorem settled_optionReborrows : ∀ e : Option Expr, Settled (optionNodes (optionReborrows e))
  | none => settled_nil
  | some e => by
    rw [optionReborrows, optionNodes]
    exact e.settled_reborrows

theorem settled_exprReborrows : ∀ es : List Expr, Settled (exprNodes (exprReborrows es))
  | [] => settled_nil
  | e :: es => by
    rw [exprReborrows, exprNodes, settled_append]
    exact ⟨e.settled_reborrows, settled_exprReborrows es⟩

theorem settled_argReborrows : ∀ es : List Expr, Settled (exprNodes (argReborrows es))
  | [] => settled_nil
  | e :: es => by
    rw [argReborrows, exprNodes, settled_append, Expr.settled_nodes_reborrow]
    exact ⟨e.settled_reborrows, settled_argReborrows es⟩

theorem settled_armReborrows : ∀ arms : List Arm, Settled (armNodes (armReborrows arms))
  | [] => settled_nil
  | ⟨guard, code⟩ :: rest => by
    rw [armReborrows, armNodes, settled_append, settled_append]
    exact ⟨⟨settled_optionReborrows guard, code.settled_reborrows⟩, settled_armReborrows rest⟩

end

theorem Function.settled_reborrows (d : Function) : Settled d.reborrows.nodes := by
  rw [Function.reborrows, Function.nodes, settled_append, settled_append]
  exact ⟨⟨settled_flatMap_map Ty.settled_reborrows d.args, d.ret.settled_reborrows⟩,
    settled_optionReborrows d.code⟩

theorem Global.settled_reborrows (d : Global) : Settled d.reborrows.nodes := by
  rw [Global.reborrows, Global.nodes, settled_append]
  exact ⟨d.type.settled_reborrows, settled_optionReborrows d.value⟩

theorem Variant.settled_reborrows (v : Variant) : Settled v.reborrows.nodes := by
  cases v with
  | unit => exact settled_nil
  | value discriminant => exact discriminant.settled_reborrows
  | tuple types => exact settled_tyReborrows types
  | fields types => exact settled_flatMap_map Ty.settled_reborrows types

/-- A trait that is accepted has no default that would be left as it was. -/
theorem TraitItem.settled_of_reborrows : ∀ {item after : TraitItem},
    item.reborrows = .ok after → Settled after.nodes
  | .method body, _, h => by
    cases h
    exact body.settled_reborrows
  | .const type none, _, h => by
    cases h
    rw [TraitItem.nodes, settled_append]
    exact ⟨type.settled_reborrows, settled_nil⟩
  | .const _ (some _), _, h => by cases h

theorem settled_of_traitReborrows {items after : List (String × TraitItem)}
    (h : traitReborrows items = .ok after) : Settled (after.flatMap (·.2.nodes)) := by
  induction items generalizing after with
  | nil =>
    cases h
    exact settled_nil
  | cons item rest ih =>
    obtain ⟨name, item⟩ := item
    simp only [traitReborrows, List.mapM_cons, Result.bind_eq_ok, Result.pure_eq_ok] at h
    obtain ⟨_, ⟨item, hi, rfl⟩, rest, hr, rfl⟩ := h
    rw [List.flatMap_cons, settled_append]
    exact ⟨TraitItem.settled_of_reborrows hi, ih hr⟩

mutual

theorem Item.settled_of_reborrows : ∀ {item after : Item},
    item.reborrows = .ok after → Settled after.nodes
  | .function body, _, h => by
    cases h
    exact body.settled_reborrows
  | .static body, _, h | .const body, _, h => by
    cases h
    exact body.settled_reborrows
  | .struct fields, _, h => by
    cases h
    exact settled_flatMap_map Ty.settled_reborrows fields
  | .enum variants, _, h => by
    cases h
    exact settled_flatMap_map Variant.settled_reborrows variants
  | .typeAlias target, _, h => by
    cases h
    exact target.settled_reborrows
  | .traitDef items, after, h => by
    simp only [Item.reborrows, Result.bind_eq_ok, Result.pure_eq_ok] at h
    obtain ⟨items, hi, rfl⟩ := h
    exact settled_of_traitReborrows hi
  | .module ⟨items⟩, after, h => by
    simp only [Item.reborrows, Result.bind_eq_ok, Result.pure_eq_ok] at h
    obtain ⟨items, hi, rfl⟩ := h
    exact settled_of_itemReborrows hi

theorem settled_of_itemReborrows : ∀ {items after : List (String × Item)},
    itemReborrows items = .ok after → Settled (itemNodes after)
  | [], _, h => by
    cases h
    exact settled_nil
  | (name, item) :: rest, after, h => by
    simp only [itemReborrows, Result.bind_eq_ok, Result.pure_eq_ok] at h
    obtain ⟨item, hi, rest, hr, rfl⟩ := h
    rw [itemNodes, settled_append]
    exact ⟨Item.settled_of_reborrows hi, settled_of_itemReborrows hr⟩

end

theorem Impl.settled_reborrows (d : Impl) : Settled d.reborrows.nodes := by
  rw [Impl.reborrows, Impl.nodes, settled_append, settled_append]
  exact ⟨⟨d.selfType.settled_reborrows, settled_flatMap_map Function.settled_reborrows d.methods⟩,
    settled_flatMap_map Global.settled_reborrows d.consts⟩

/-- No expression that reborrowing reaches assigns or passes a `&mut` out of the place that holds it. -/
theorem Program.given_not_holdsUnique (p after : Program) (h : p.reborrows = .ok after) :
    ∀ e ∈ after.nodes, ∀ x ∈ e.kind.given, ¬x.HoldsUnique := by
  change Settled after.nodes
  simp only [Program.reborrows, Result.bind_eq_ok, Result.pure_eq_ok] at h
  obtain ⟨items, hi, rfl⟩ := h
  rw [Program.nodes, settled_append, List.flatMap_map]
  exact ⟨settled_of_itemReborrows hi, settled_flatMap fun d _ => d.settled_reborrows⟩

/-- The call `f(x)` with a `&mut ()` for `x`. -/
def Expr.passOn : Expr :=
  ⟨default, .unit, .unknown, .callPath ⟨"::f", []⟩
    [⟨default, .borrow .unique .unit, .move, .localVar "x" 0⟩]⟩

/-- The call in the body of a function and in the size of the array that it takes. -/
def Program.passOn : Program :=
  let body : Function := ⟨[("cells", .array .unit (some .passOn))], .unit, some .passOn⟩
  ⟨⟨[("m", .module ⟨[("g", .function body)]⟩)]⟩, []⟩

theorem Program.given_not_holdsUnique_passOn : ¬Settled Program.passOn.nodes ∧
    ∃ after, Program.passOn.reborrows = .ok after ∧
      ∀ e ∈ after.nodes, ∀ x ∈ e.kind.given, ¬x.HoldsUnique := by
  refine ⟨fun h => ?_, _, rfl, Program.given_not_holdsUnique .passOn _ rfl⟩
  have hmem : Expr.passOn ∈ Program.passOn.nodes := .head _
  exact h _ hmem _ (.head _) ⟨rfl, .unit, rfl⟩

end BorrowLang.Typed
