import BorrowLang.Syntax.Item

/-! The expressions that a body is made of, and the functions whose bodies are checked. -/
namespace BorrowLang

mutual

/-- The expression and every expression inside it, in the order in which they are written. -/
def Expr.nodes : Expr → List Expr
  | ⟨kind, type, span⟩ => ⟨kind, type, span⟩ :: kind.nodes

/-- The expressions inside. -/
def ExprKind.nodes : ExprKind → List Expr
  | .block ⟨statements, tail, _, _⟩ => exprNodes statements ++ optionNodes tail
  | .letIn _ _ value => value.nodes
  | .assign place value => place.nodes ++ value.nodes
  | .ret value => optionNodes value
  | .cond condition thenBranch elseBranch =>
    condition.nodes ++ thenBranch.nodes ++ optionNodes elseBranch
  | .matchOn value arms => value.nodes ++ armNodes arms
  | .callPath _ args => exprNodes args
  | .callMethod receiver _ args => receiver.nodes ++ exprNodes args
  | .callValue callee args => callee.nodes ++ exprNodes args
  | .named _ => []
  | .field object _ => object.nodes
  | .index value index => value.nodes ++ index.nodes
  | .deref value => value.nodes
  | .borrow _ value => value.nodes
  | .cast value _ => value.nodes
  | .tuple items => exprNodes items
  | .literal _ => []
  | .binary _ left right => left.nodes ++ right.nodes

def optionNodes : Option Expr → List Expr
  | none => []
  | some e => e.nodes

def exprNodes : List Expr → List Expr
  | [] => []
  | e :: es => e.nodes ++ exprNodes es

def armNodes : List Arm → List Expr
  | [] => []
  | ⟨_, guard, code⟩ :: rest => optionNodes guard ++ code.nodes ++ armNodes rest

end

theorem Expr.mem_nodes_self (e : Expr) : e ∈ e.nodes := by
  obtain ⟨kind, type, span⟩ := e
  exact .head _

theorem Expr.forall_mem_nodes {P : Expr → Prop} {e : Expr} :
    (∀ x ∈ e.nodes, P x) ↔ P e ∧ ∀ x ∈ e.kind.nodes, P x := by
  obtain ⟨kind, type, span⟩ := e
  exact List.forall_mem_cons

/-- An implicit dereference adds its node in front. -/
theorem Expr.forall_mem_nodes_derefTimes {P : Expr → Prop}
    (hd : ∀ e : Expr, P e → P ⟨.deref e, e.type.peel, e.span⟩) (n : Nat) {e : Expr}
    (h : ∀ x ∈ e.nodes, P x) : ∀ x ∈ (e.derefTimes n).nodes, P x := by
  induction n generalizing e with
  | zero => exact h
  | succ n ih =>
    apply ih
    simp only [Expr.nodes, ExprKind.nodes, List.forall_mem_cons]
    exact ⟨hd e (h e e.mem_nodes_self), h⟩

theorem Expr.nodes_subset_derefTimes (n : Nat) (e : Expr) : e.nodes ⊆ (e.derefTimes n).nodes := by
  induction n generalizing e with
  | zero => exact List.Subset.refl _
  | succ n ih =>
    refine List.Subset.trans ?_ (ih _)
    exact List.subset_cons_self _ _

def ImplItem.function? (item : ImplItem) : Option Function :=
  match item.member with
  | .function body => some body
  | .const .. | .type _ => none

mutual

/-- The functions of a module and of the modules in it, in order, with those of impl blocks where
these are checked. The methods of a trait are not. -/
def Module.functions (implMethods : Bool) : Module → List Function
  | ⟨_, _, items⟩ => itemFunctions implMethods items

def Item.functions (implMethods : Bool) : Item → List Function
  | .function d => [d]
  | .impl d => if implMethods then d.items.filterMap (·.function?) else []
  | .module m => m.functions implMethods
  | .struct _ | .enum _ | .traitDef _ | .static _ | .typeAlias _ => []

def itemFunctions (implMethods : Bool) : List Item → List Function
  | [] => []
  | i :: is => i.functions implMethods ++ itemFunctions implMethods is

end

mutual

/-- The same functions, each with the type parameters of the impl block around it. -/
def Module.scopedFunctions (implMethods : Bool) : Module → List (List String × Function)
  | ⟨_, _, items⟩ => itemScopedFunctions implMethods items

def Item.scopedFunctions (implMethods : Bool) : Item → List (List String × Function)
  | .function d => [([], d)]
  | .impl d =>
    if implMethods then (d.items.filterMap (·.function?)).map (d.params.names, ·) else []
  | .module m => m.scopedFunctions implMethods
  | .struct _ | .enum _ | .traitDef _ | .static _ | .typeAlias _ => []

def itemScopedFunctions (implMethods : Bool) : List Item → List (List String × Function)
  | [] => []
  | i :: is => i.scopedFunctions implMethods ++ itemScopedFunctions implMethods is

end

section
variable (implMethods : Bool)

mutual

theorem Module.map_snd_scopedFunctions : ∀ m : Module,
    (m.scopedFunctions implMethods).map (·.2) = m.functions implMethods
  | ⟨_, _, items⟩ => map_snd_itemScopedFunctions items

theorem Item.map_snd_scopedFunctions : ∀ i : Item,
    (i.scopedFunctions implMethods).map (·.2) = i.functions implMethods
  | .function _ => rfl
  | .impl d => by
    rw [Item.scopedFunctions, Item.functions]
    split
    · simp [Function.comp_def]
    · rfl
  | .module m => m.map_snd_scopedFunctions
  | .struct _ | .enum _ | .traitDef _ | .static _ | .typeAlias _ => rfl

theorem map_snd_itemScopedFunctions : ∀ is : List Item,
    (itemScopedFunctions implMethods is).map (·.2) = itemFunctions implMethods is
  | [] => rfl
  | i :: is => by
    rw [itemScopedFunctions, itemFunctions, List.map_append, i.map_snd_scopedFunctions,
      map_snd_itemScopedFunctions is]

end

end
end BorrowLang
