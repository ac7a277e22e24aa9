import BorrowLang.Proofs.Reborrow

/-!
What reborrowing makes of the parts of a program, for any kind of part that the two nodes of a new
borrow do not have. Such parts stay as many and in order, and each is rewritten on its own.
-/
namespace BorrowLang.Typed

/-- The parts that the nodes have. -/
def parts {α : Type} (read : ExprKind → List α) (nodes : List Expr) : List α :=
  nodes.flatMap fun e => read e.kind

/-- A kind of part that reborrowing rewrites by `f`, and that a borrow or a dereference has not. -/
structure Rewrites {α : Type} (read : ExprKind → List α) (f : α → α) : Prop where
  reborrows : ∀ kind : ExprKind, read kind.reborrows = (read kind).map f
  borrow : ∀ kind value, read (.borrow kind value) = []
  deref : ∀ value, read (.deref value) = []

section
variable {α : Type} {read : ExprKind → List α} {f : α → α}

@[simp] theorem parts_cons (e : Expr) (es : List Expr) :
    parts read (e :: es) = read e.kind ++ parts read es := rfl

@[simp] theorem parts_append (es fs : List Expr) :
    parts read (es ++ fs) = parts read es ++ parts read fs := List.flatMap_append

theorem parts_flatMap {β : Type} (g : β → List Expr) (bs : List β) :
    parts read (bs.flatMap g) = bs.flatMap fun b => parts read (g b) := List.flatMap_assoc

theorem Rewrites.parts_nodes_reborrow (h : Rewrites read f) (e : Expr) :
    parts read e.reborrow.nodes = parts read e.nodes := by
  by_cases hu : e.HoldsUnique
  · obtain ⟨hp, inner, ht⟩ := hu
    rw [Expr.reborrow_of_holdsUnique hp ht]
    simp only [Expr.nodes, ExprKind.nodes, parts_cons, h.borrow, h.deref, List.nil_append]
  · rw [Expr.reborrow_eq_self hu]

/-- The parts of named things, each rewritten by `g`. -/
theorem parts_flatMap_map {β : Type} {g : β → β} {nodes : β → List Expr}
    (hg : ∀ b, parts read (nodes (g b)) = (parts read (nodes b)).map f) (bs : List (String × β)) :
    parts read ((bs.map fun (name, b) => (name, g b)).flatMap (nodes ·.2)) =
      (parts read (bs.flatMap (nodes ·.2))).map f := by
  rw [List.flatMap_map, parts_flatMap, parts_flatMap, List.map_flatMap]
  exact List.flatMap_congr fun b _ => hg b.2

mutual

theorem Rewrites.ty (h : Rewrites read f) : ∀ t : Ty,
    parts read t.reborrows.nodes = (parts read t.nodes).map f
  | .array inner none => by
    rw [Ty.reborrows, Ty.nodes, Ty.nodes, h.ty inner]
  | .array inner (some size) => by
    rw [Ty.reborrows, Ty.nodes, Ty.nodes, parts_append, parts_append, List.map_append,
      h.ty inner, h.expr size]
  | .borrow kind inner => by
    rw [Ty.reborrows, Ty.nodes, Ty.nodes, h.ty inner]
  | .tuple items => by
    rw [Ty.reborrows, Ty.nodes, Ty.nodes, h.tys items]
  | .path ⟨key, args⟩ => by
    rw [Ty.reborrows, Ty.nodes, Ty.nodes, h.tys args]
  | .unit | .primitive _ | .generic _ => rfl

theorem Rewrites.tys (h : Rewrites read f) : ∀ ts : List Ty,
    parts read (tyNodes (tyReborrows ts)) = (parts read (tyNodes ts)).map f
  | [] => rfl
  | t :: ts => by
    rw [tyReborrows, tyNodes, tyNodes, parts_append, parts_append, List.map_append,
      h.ty t, h.tys ts]

theorem Rewrites.expr (h : Rewrites read f) : ∀ e : Expr,
    parts read e.reborrows.nodes = (parts read e.nodes).map f
  | ⟨span, type, usage, kind⟩ => by
    rw [Expr.reborrows, Expr.nodes, Expr.nodes, parts_cons, parts_cons, List.map_append,
      h.reborrows, h.exprKind kind]

theorem Rewrites.exprKind (h : Rewrites read f) : ∀ kind : ExprKind,
    parts read kind.reborrows.nodes = (parts read kind.nodes).map f
  | .block statements tail => by
    rw [ExprKind.reborrows, ExprKind.nodes, ExprKind.nodes, parts_append, parts_append,
      List.map_append, h.exprs statements, h.option tail]
  | .letIn name type value => by
    rw [ExprKind.reborrows, ExprKind.nodes, ExprKind.nodes, parts_append, parts_append,
      List.map_append, h.ty type, h.option value]
  | .assign place value => by
    rw [ExprKind.reborrows, ExprKind.nodes, ExprKind.nodes, parts_append, parts_append,
      List.map_append, h.parts_nodes_reborrow, h.expr place, h.expr value]
  | .ret value => by
    rw [ExprKind.reborrows, ExprKind.nodes, ExprKind.nodes, h.option value]
  | .cond condition thenBranch elseBranch => by
    rw [ExprKind.reborrows, ExprKind.nodes, ExprKind.nodes, parts_append, parts_append,
      parts_append, parts_append, List.map_append, List.map_append, h.expr condition,
      h.expr thenBranch, h.option elseBranch]
  | .matchOn value arms => by
    rw [ExprKind.reborrows, ExprKind.nodes, ExprKind.nodes, parts_append, parts_append,
      List.map_append, h.expr value, h.arms arms]
  | .borrow _ value | .deref value | .field value _ => by
    rw [ExprKind.reborrows, ExprKind.nodes, ExprKind.nodes, h.expr value]
  | .index value index => by
    rw [ExprKind.reborrows, ExprKind.nodes, ExprKind.nodes, parts_append, parts_append,
      List.map_append, h.expr value, h.expr index]
  | .localVar _ _ | .item _ | .literal _ => rfl
  | .cast value target => by
    rw [ExprKind.reborrows, ExprKind.nodes, ExprKind.nodes, parts_append, parts_append,
      List.map_append, h.expr value, h.ty target]
  | .tuple items => by
    rw [ExprKind.reborrows, ExprKind.nodes, ExprKind.nodes, h.exprs items]
  | .callPath path args => by
    rw [ExprKind.reborrows, ExprKind.nodes, ExprKind.nodes, h.args args]
  | .callValue callee args => by
    rw [ExprKind.reborrows, ExprKind.nodes, ExprKind.nodes, parts_append, parts_append,
      List.map_append, h.expr callee, h.args args]
  | .callMethod receiver method args => by
    rw [ExprKind.reborrows, ExprKind.nodes, ExprKind.nodes, parts_append, parts_append,
      List.map_append, h.expr receiver, h.args args]
  | .binary op left right => by
    rw [ExprKind.reborrows, ExprKind.nodes, ExprKind.nodes, parts_append, parts_append,
      List.map_append, h.expr left, h.expr right]

theorem Rewrites.option (h : Rewrites read f) : ∀ e : Option Expr,
    parts read (optionNodes (optionReborrows e)) = (parts read (optionNodes e)).map f
  | none => rfl
  | some e => by
    rw [optionReborrows, optionNodes, optionNodes, h.expr e]

theorem Rewrites.exprs (h : Rewrites read f) : ∀ es : List Expr,
    parts read (exprNodes (exprReborrows es)) = (parts read (exprNodes es)).map f
  | [] => rfl
  | e :: es => by
    rw [exprReborrows, exprNodes, exprNodes, parts_append, parts_append, List.map_append,
      h.expr e, h.exprs es]

theorem Rewrites.args (h : Rewrites read f) : ∀ es : List Expr,
    parts read (exprNodes (argReborrows es)) = (parts read (exprNodes es)).map f
  | [] => rfl
  | e :: es => by
    rw [argReborrows, exprNodes, exprNodes, parts_append, parts_append, List.map_append,
      h.parts_nodes_reborrow, h.expr e, h.args es]

theorem Rewrites.arms (h : Rewrites read f) : ∀ arms : List Arm,
    parts read (armNodes (armReborrows arms)) = (parts read (armNodes arms)).map f
  | [] => rfl
  | ⟨guard, code⟩ :: rest => by
    rw [armReborrows, armNodes, armNodes, parts_append, parts_append, parts_append, parts_append,
      List.map_append, List.map_append, h.option guard, h.expr code,
      h.arms rest]

end

theorem Rewrites.function (h : Rewrites read f) (d : Function) :
    parts read d.reborrows.nodes = (parts read d.nodes).map f := by
  rw [Function.reborrows, Function.nodes, Function.nodes]
  simp only [parts_append, List.map_append, parts_flatMap_map h.ty, h.ty, h.option]

theorem Rewrites.global (h : Rewrites read f) (d : Global) :
    parts read d.reborrows.nodes = (parts read d.nodes).map f := by
  rw [Global.reborrows, Global.nodes, Global.nodes, parts_append, parts_append, List.map_append,
    h.ty, h.option]

theorem Rewrites.variant (h : Rewrites read f) (v : Variant) :
    parts read v.reborrows.nodes = (parts read v.nodes).map f := by
  cases v with
  | unit => rfl
  | value discriminant => exact h.expr discriminant
  | tuple types => exact h.tys types
  | fields types => exact parts_flatMap_map h.ty types

/-- The one item that is refused is not among the results. -/
theorem Rewrites.traitItem (h : Rewrites read f) : ∀ {item after : TraitItem},
    item.reborrows = .ok after → parts read after.nodes = (parts read item.nodes).map f
  | .method body, _, hi => by
    cases hi
    exact h.function body
  | .const type none, _, hi => by
    cases hi
    rw [TraitItem.nodes, TraitItem.nodes, parts_append, parts_append, List.map_append, h.ty]
    rfl
  | .const _ (some _), _, hi => by cases hi

theorem Rewrites.traitItems (h : Rewrites read f) {items after : List (String × TraitItem)}
    (hi : traitReborrows items = .ok after) :
    parts read (after.flatMap (·.2.nodes)) = (parts read (items.flatMap (·.2.nodes))).map f := by
  induction items generalizing after with
  | nil =>
    cases hi
    rfl
  | cons item rest ih =>
    obtain ⟨name, item⟩ := item
    simp only [traitReborrows, List.mapM_cons, Result.bind_eq_ok, Result.pure_eq_ok] at hi
    obtain ⟨_, ⟨item, hitem, rfl⟩, rest, hrest, rfl⟩ := hi
    rw [List.flatMap_cons, List.flatMap_cons, parts_append, parts_append, List.map_append,
      h.traitItem hitem, ih hrest]

mutual

theorem Rewrites.item (h : Rewrites read f) : ∀ {item after : Item},
    item.reborrows = .ok after → parts read after.nodes = (parts read item.nodes).map f
  | .function body, _, hi => by
    cases hi
    exact h.function body
  | .static body, _, hi | .const body, _, hi => by
    cases hi
    exact h.global body
  | .struct fields, _, hi => by
    cases hi
    exact parts_flatMap_map h.ty fields
  | .enum variants, _, hi => by
    cases hi
    exact parts_flatMap_map h.variant variants
  | .typeAlias target, _, hi => by
    cases hi
    exact h.ty target
  | .traitDef items, _, hi => by
    simp only [Item.reborrows, Result.bind_eq_ok, Result.pure_eq_ok] at hi
    obtain ⟨items, hi, rfl⟩ := hi
    exact h.traitItems hi
  | .module ⟨items⟩, _, hi => by
    simp only [Item.reborrows, Result.bind_eq_ok, Result.pure_eq_ok] at hi
    obtain ⟨items, hi, rfl⟩ := hi
    exact h.items hi

theorem Rewrites.items (h : Rewrites read f) : ∀ {items after : List (String × Item)},
    itemReborrows items = .ok after →
      parts read (itemNodes after) = (parts read (itemNodes items)).map f
  | [], _, hi => by
    cases hi
    rfl
  | (name, item) :: rest, _, hi => by
    simp only [itemReborrows, Result.bind_eq_ok, Result.pure_eq_ok] at hi
    obtain ⟨item, hitem, rest, hrest, rfl⟩ := hi
    rw [itemNodes, itemNodes, parts_append, parts_append, List.map_append, h.item hitem,
      h.items hrest]

end

theorem Rewrites.impl (h : Rewrites read f) (d : Impl) :
    parts read d.reborrows.nodes = (parts read d.nodes).map f := by
  rw [Impl.reborrows, Impl.nodes, Impl.nodes]
  simp only [parts_append, List.map_append, parts_flatMap_map h.function,
    parts_flatMap_map h.global, h.ty]

/-- Part by part the program is rewritten. -/
theorem Rewrites.program (h : Rewrites read f) {p after : Program} (hp : p.reborrows = .ok after) :
    parts read after.nodes = (parts read p.nodes).map f := by
  simp only [Program.reborrows, Result.bind_eq_ok, Result.pure_eq_ok] at hp
  obtain ⟨items, hi, rfl⟩ := hp
  have himpls : parts read ((p.impls.map Impl.reborrows).flatMap Impl.nodes) =
      (parts read (p.impls.flatMap Impl.nodes)).map f := by
    rw [List.flatMap_map, parts_flatMap, parts_flatMap, List.map_flatMap]
    exact List.flatMap_congr fun d _ => h.impl d
  rw [Program.nodes, Program.nodes, parts_append, parts_append, List.map_append, h.items hi, himpls]

end
end BorrowLang.Typed
