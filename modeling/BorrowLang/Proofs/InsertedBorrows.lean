import BorrowLang.Proofs.ReborrowedNodes

/-!
Reborrowing adds the borrows of places that would give a `&mut` away, and nothing else: the result
less these borrows is the program itself.
-/
namespace BorrowLang.Typed

/-- What a program assigns and passes, in the order of its nodes. -/
def Program.given (p : Program) : List Expr := parts ExprKind.given p.nodes

/-- The target of an assignment and the receiver of a method. -/
def ExprKind.used : ExprKind → List Expr
  | .assign place _ => [place]
  | .callMethod receiver _ _ => [receiver]
  | _ => []

/-- The targets and receivers of a program, in the order of its nodes. -/
def Program.used (p : Program) : List Expr := parts ExprKind.used p.nodes

def Expr.blank : Expr := ⟨default, .unit, .unknown, .tuple []⟩

/-- The node with a blank for every expression in it and none of the types that it writes. -/
def ExprKind.root : ExprKind → ExprKind
  | .block statements tail => .block (statements.map fun _ => .blank) (tail.map fun _ => .blank)
  | .letIn name _ value => .letIn name .unit (value.map fun _ => .blank)
  | .assign _ _ => .assign .blank .blank
  | .ret value => .ret (value.map fun _ => .blank)
  | .cond _ _ elseBranch => .cond .blank .blank (elseBranch.map fun _ => .blank)
  | .matchOn _ arms => .matchOn .blank (arms.map fun arm => ⟨arm.guard.map fun _ => .blank, .blank⟩)
  | .borrow kind _ => .borrow kind .blank
  | .deref _ => .deref .blank
  | .index _ _ => .index .blank .blank
  | .field _ name => .field .blank name
  | .localVar name slot => .localVar name slot
  | .item path => .item path
  | .literal value => .literal value
  | .cast _ _ => .cast .blank .unit
  | .tuple items => .tuple (items.map fun _ => .blank)
  | .callPath path args => .callPath path (args.map fun _ => .blank)
  | .callValue _ args => .callValue .blank (args.map fun _ => .blank)
  | .callMethod _ method args => .callMethod .blank method (args.map fun _ => .blank)
  | .binary op _ _ => .binary op .blank .blank

def Expr.root (e : Expr) : Expr := ⟨e.span, e.type, e.usage, e.kind.root⟩

theorem optionReborrows_eq_map (e : Option Expr) : optionReborrows e = e.map Expr.reborrows := by
  cases e <;> rfl

theorem exprReborrows_eq_map (es : List Expr) : exprReborrows es = es.map Expr.reborrows := by
  induction es with
  | nil => rfl
  | cons e es ih => rw [exprReborrows, List.map_cons, ih]

theorem argReborrows_eq_map (es : List Expr) :
    argReborrows es = es.map fun e => e.reborrows.reborrow := by
  induction es with
  | nil => rfl
  | cons e es ih => rw [argReborrows, List.map_cons, ih]

theorem armReborrows_eq_map (arms : List Arm) : armReborrows arms =
    arms.map fun arm => ⟨arm.guard.map Expr.reborrows, arm.code.reborrows⟩ := by
  induction arms with
  | nil => rfl
  | cons arm arms ih =>
    obtain ⟨guard, code⟩ := arm
    rw [armReborrows, List.map_cons, ih, optionReborrows_eq_map]

theorem ExprKind.root_reborrows (kind : ExprKind) : kind.reborrows.root = kind.root := by
  cases kind <;>
    simp only [reborrows, root, optionReborrows_eq_map, exprReborrows_eq_map, argReborrows_eq_map,
      armReborrows_eq_map, List.map_map, Option.map_map, Function.comp_def]

/-- Only what is inside an expression is rewritten, its own node is not. -/
theorem Expr.root_reborrows (e : Expr) : e.reborrows.root = e.root := by
  obtain ⟨span, type, usage, kind⟩ := e
  exact congrArg (Expr.mk span type usage) kind.root_reborrows

theorem Expr.isPlace_reborrows (e : Expr) : e.reborrows.isPlace = e.isPlace := by
  obtain ⟨span, type, usage, kind⟩ := e
  cases kind <;> rfl

theorem Expr.type_reborrows (e : Expr) : e.reborrows.type = e.type := by
  obtain ⟨span, type, usage, kind⟩ := e
  rfl

theorem Expr.span_reborrows (e : Expr) : e.reborrows.span = e.span := by
  obtain ⟨span, type, usage, kind⟩ := e
  rfl

theorem Expr.usage_reborrows (e : Expr) : e.reborrows.usage = e.usage := by
  obtain ⟨span, type, usage, kind⟩ := e
  rfl

theorem Expr.holdsUnique_reborrows (e : Expr) : e.reborrows.HoldsUnique ↔ e.HoldsUnique := by
  rw [HoldsUnique, HoldsUnique, e.isPlace_reborrows, e.type_reborrows]

/-- The second expression takes the place of the first among what is given: it is the first with its
parts rewritten, and behind a new borrow where the first is a place that holds a `&mut`. -/
inductive Expr.GivenAs (e : Expr) : Expr → Prop
  | kept : ¬e.HoldsUnique → e.reborrows.root = e.root → GivenAs e e.reborrows
  | borrowed (inner : Ty) : e.isPlace = true → e.type = .borrow .unique inner →
    e.reborrows.root = e.root →
    GivenAs e
      ⟨e.span, e.type, e.usage, .borrow .unique ⟨e.span, inner, .unknown, .deref e.reborrows⟩⟩

theorem Expr.givenAs_reborrow (e : Expr) : e.GivenAs e.reborrows.reborrow := by
  by_cases h : e.HoldsUnique
  · obtain ⟨hp, inner, ht⟩ := h
    have hp' : e.reborrows.isPlace = true := e.isPlace_reborrows.trans hp
    have ht' : e.reborrows.type = .borrow .unique inner := e.type_reborrows.trans ht
    rw [reborrow_of_holdsUnique hp' ht', e.span_reborrows, e.type_reborrows, e.usage_reborrows]
    exact .borrowed inner hp ht e.root_reborrows
  · rw [reborrow_eq_self (mt e.holdsUnique_reborrows.mp h)]
    exact .kept h e.root_reborrows

/-- A slot keeps its annotations. -/
theorem Expr.GivenAs.annotations {e e' : Expr} (h : e.GivenAs e') :
    e'.type = e.type ∧ e'.span = e.span ∧ e'.usage = e.usage := by
  cases h with
  | kept => exact ⟨e.type_reborrows, e.span_reborrows, e.usage_reborrows⟩
  | borrowed => exact ⟨rfl, rfl, rfl⟩

theorem rewrites_given : Rewrites ExprKind.given fun e => e.reborrows.reborrow where
  reborrows kind := by
    cases kind with
    | callPath path args | callValue callee args | callMethod receiver method args =>
      exact argReborrows_eq_map args
    | _ => rfl
  borrow _ _ := rfl
  deref _ := rfl

theorem rewrites_used : Rewrites ExprKind.used Expr.reborrows where
  reborrows kind := by cases kind <;> rfl
  borrow _ _ := rfl
  deref _ := rfl

/-- The test for a place that holds a `&mut`. -/
def Expr.holdsUnique (e : Expr) : Bool :=
  match e.type with
  | .borrow .unique _ => e.isPlace
  | _ => false

theorem Expr.holdsUnique_iff (e : Expr) : e.holdsUnique = true ↔ e.HoldsUnique := by
  obtain ⟨span, type, usage, kind⟩ := e
  rw [holdsUnique, HoldsUnique]
  split
  next inner ht => exact ⟨fun h => ⟨h, inner, ht⟩, And.left⟩
  next ht => exact ⟨nofun, fun ⟨_, inner, h⟩ => absurd h (ht inner)⟩

/-- What is under the borrow and the dereference, where these were added. -/
def Expr.beneath : (added : Bool) → Expr → Expr
  | true, ⟨_, _, _, .borrow _ ⟨_, _, _, .deref e⟩⟩ => e
  | _, e => e

theorem Expr.beneath_reborrow (e : Expr) : e.reborrow.beneath e.holdsUnique = e := by
  by_cases h : e.HoldsUnique
  · obtain ⟨hp, inner, ht⟩ := h
    rw [reborrow_of_holdsUnique hp ht, e.holdsUnique_iff.mpr ⟨hp, inner, ht⟩]
    rfl
  · rw [reborrow_eq_self h, Bool.eq_false_iff.mpr (mt e.holdsUnique_iff.mp h)]
    rfl

/-- A walk that finds out place by place, from a list of marks, whether a borrow was added there. -/
abbrev Undo (α : Type) := StateM (List Bool) α

namespace Undo

/-- The mark of the next place. -/
def mark : Undo Bool := fun marks => (marks.headD false, marks.tail)

/-- The marks of the next `n` places. -/
def marks (n : Nat) : Undo (List Bool) := fun marks => (marks.take n, marks.drop n)

/-- The walk over a thing that has a name. -/
def named {α : Type} (walk : α → Undo α) (entry : String × α) : Undo (String × α) :=
  return (entry.1, ← walk entry.2)

end Undo

mutual

def Ty.withdraw : Ty → Undo Ty
  | .array inner none => return .array (← inner.withdraw) none
  | .array inner (some size) => return .array (← inner.withdraw) (some (← size.withdraw))
  | .borrow kind inner => return .borrow kind (← inner.withdraw)
  | .tuple items => return .tuple (← tyWithdraw items)
  | .path ⟨key, args⟩ => return .path ⟨key, ← tyWithdraw args⟩
  | .unit => return .unit
  | .primitive scalar => return .primitive scalar
  | .generic name => return .generic name

def tyWithdraw : List Ty → Undo (List Ty)
  | [] => return []
  | t :: ts => return (← t.withdraw) :: (← tyWithdraw ts)

/-- The expression less the borrows that the marks say were added to what it gives. -/
def Expr.withdraw : Expr → Undo Expr
  | ⟨span, type, usage, kind⟩ => return ⟨span, type, usage, ← kind.withdraw⟩

/-- The marks of what a node gives come before those of what is inside. -/
def ExprKind.withdraw : ExprKind → Undo ExprKind
  | .block statements tail => return .block (← exprWithdraw statements) (← optionWithdraw tail)
  | .letIn name type value => return .letIn name (← type.withdraw) (← optionWithdraw value)
  | .assign place value => do
    let added ← Undo.mark
    return .assign (← place.withdraw) ((← value.withdraw).beneath added)
  | .ret value => return .ret (← optionWithdraw value)
  | .cond condition thenBranch elseBranch =>
    return .cond (← condition.withdraw) (← thenBranch.withdraw) (← optionWithdraw elseBranch)
  | .matchOn value arms => return .matchOn (← value.withdraw) (← armWithdraw arms)
  | .borrow kind value => return .borrow kind (← value.withdraw)
  | .deref value => return .deref (← value.withdraw)
  | .index value index => return .index (← value.withdraw) (← index.withdraw)
  | .field value name => return .field (← value.withdraw) name
  | .localVar name slot => return .localVar name slot
  | .item path => return .item path
  | .literal value => return .literal value
  | .cast value target => return .cast (← value.withdraw) (← target.withdraw)
  | .tuple items => return .tuple (← exprWithdraw items)
  | .callPath path args => do
    let added ← Undo.marks args.length
    return .callPath path (List.zipWith Expr.beneath added (← exprWithdraw args))
  | .callValue callee args => do
    let added ← Undo.marks args.length
    return .callValue (← callee.withdraw) (List.zipWith Expr.beneath added (← exprWithdraw args))
  | .callMethod receiver method args => do
    let added ← Undo.marks args.length
    return .callMethod (← receiver.withdraw) method
      (List.zipWith Expr.beneath added (← exprWithdraw args))
  | .binary op left right => return .binary op (← left.withdraw) (← right.withdraw)

def optionWithdraw : Option Expr → Undo (Option Expr)
  | none => return none
  | some e => return some (← e.withdraw)

def exprWithdraw : List Expr → Undo (List Expr)
  | [] => return []
  | e :: es => return (← e.withdraw) :: (← exprWithdraw es)

def armWithdraw : List Arm → Undo (List Arm)
  | [] => return []
  | ⟨guard, code⟩ :: rest =>
    return ⟨← optionWithdraw guard, ← code.withdraw⟩ :: (← armWithdraw rest)

end

def fieldWithdraw (fields : List (String × Ty)) : Undo (List (String × Ty)) :=
  fields.mapM (Undo.named Ty.withdraw)

def Function.withdraw (d : Function) : Undo Function :=
  return ⟨← fieldWithdraw d.args, ← d.ret.withdraw, ← optionWithdraw d.code⟩

def Global.withdraw (d : Global) : Undo Global :=
  return ⟨← d.type.withdraw, ← optionWithdraw d.value⟩

def Variant.withdraw : Variant → Undo Variant
  | unit => return unit
  | value discriminant => return value (← discriminant.withdraw)
  | tuple types => return tuple (← tyWithdraw types)
  | fields types => return fields (← fieldWithdraw types)

def TraitItem.withdraw : TraitItem → Undo TraitItem
  | method body => return method (← body.withdraw)
  | const type default => return const (← type.withdraw) (← optionWithdraw default)

mutual

def Item.withdraw : Item → Undo Item
  | .function body => return .function (← body.withdraw)
  | .static body => return .static (← body.withdraw)
  | .const body => return .const (← body.withdraw)
  | .struct fields => return .struct (← fieldWithdraw fields)
  | .enum variants => return .enum (← variants.mapM (Undo.named Variant.withdraw))
  | .typeAlias target => return .typeAlias (← target.withdraw)
  | .traitDef items => return .traitDef (← items.mapM (Undo.named TraitItem.withdraw))
  | .module ⟨items⟩ => return .module ⟨← itemWithdraw items⟩

def itemWithdraw : List (String × Item) → Undo (List (String × Item))
  | [] => return []
  | (name, item) :: rest => return (name, ← item.withdraw) :: (← itemWithdraw rest)

end

def Impl.withdraw (d : Impl) : Undo Impl :=
  return ⟨d.traitPath, ← d.selfType.withdraw,
    ← d.methods.mapM (Undo.named Function.withdraw),
    ← d.consts.mapM (Undo.named Global.withdraw)⟩

/-- The program less the borrows that the marks say were added. -/
def Program.withdraw (p : Program) : Undo Program :=
  return ⟨⟨← itemWithdraw p.root.items⟩, ← p.impls.mapM Impl.withdraw⟩

/-- A mark for everything that the nodes give: whether it is a place that holds a `&mut`. -/
def marks (nodes : List Expr) : List Bool := (parts ExprKind.given nodes).map Expr.holdsUnique

@[simp] theorem marks_cons (e : Expr) (es : List Expr) :
    marks (e :: es) = e.kind.given.map Expr.holdsUnique ++ marks es := List.map_append

@[simp] theorem marks_append (es fs : List Expr) : marks (es ++ fs) = marks es ++ marks fs := by
  rw [marks, parts_append, List.map_append]
  rfl

theorem marks_flatMap {α : Type} (f : α → List Expr) (xs : List α) :
    marks (xs.flatMap f) = xs.flatMap fun x => marks (f x) := by
  rw [marks, parts_flatMap, List.map_flatMap]
  rfl

/-- The walk reads these marks and gives back `a`. -/
def Undo.Restores {α : Type} (c : Undo α) (ms : List Bool) (a : α) : Prop :=
  ∀ rest, c.run (ms ++ rest) = (a, rest)

namespace Undo
variable {α β : Type} {c : Undo α} {f : α → Undo β} {ms ns : List Bool} {a : α} {b : β}

theorem restores_pure (a : α) : Restores (pure a : Undo α) [] a := fun _ => rfl

theorem Restores.bind (h : c.Restores ms a) (k : (f a).Restores ns b) :
    (c >>= f).Restores (ms ++ ns) b := by
  intro rest
  rw [StateT.run_bind, List.append_assoc, h]
  exact k rest

theorem Restores.map (h : c.Restores ms a) (g : α → β) :
    (c >>= fun x => pure (g x)).Restores ms (g a) := by
  have hbind := h.bind (f := fun x => pure (g x)) (restores_pure (g a))
  rwa [List.append_nil] at hbind

theorem restores_mark (m : Bool) : mark.Restores [m] m := fun _ => rfl

theorem restores_marks (ms : List Bool) : (marks ms.length).Restores ms ms := by
  intro rest
  change ((ms ++ rest).take ms.length, (ms ++ rest).drop ms.length) = (ms, rest)
  rw [List.take_left, List.drop_left]

/-- Of a list that was rewritten element by element, each element is restored. -/
theorem Restores.mapM {c : α → Undo α} {g : α → α} {m : α → List Bool} {as : List α}
    (h : ∀ x ∈ as, (c (g x)).Restores (m x) x) : ((as.map g).mapM c).Restores (as.flatMap m) as := by
  induction as with
  | nil => exact restores_pure []
  | cons x xs ih =>
    obtain ⟨hx, hxs⟩ := List.forall_mem_cons.mp h
    rw [List.map_cons, List.mapM_cons, List.flatMap_cons]
    exact hx.bind ((ih hxs).map _)

theorem restores_named {c : α → Undo α} {g : α → α} {nodes : α → List Expr}
    (h : ∀ x, (c (g x)).Restores (Typed.marks (nodes x)) x) (xs : List (String × α)) :
    Restores ((xs.map fun (name, x) => (name, g x)).mapM (named c))
      (Typed.marks (xs.flatMap (nodes ·.2))) xs := by
  rw [marks_flatMap]
  exact Restores.mapM fun entry _ => (h entry.2).map (entry.1, ·)

end Undo

theorem zipWith_beneath_reborrow (es : List Expr) :
    List.zipWith Expr.beneath (es.map Expr.holdsUnique) (es.map Expr.reborrow) = es := by
  induction es with
  | nil => rfl
  | cons e es ih =>
    rw [List.map_cons, List.map_cons, List.zipWith_cons_cons, ih, e.beneath_reborrow]

/-- The walk goes through the two new nodes without reading a mark. -/
theorem Undo.Restores.reborrow {e : Expr} {ms : List Bool} (h : e.reborrows.withdraw.Restores ms e) :
    e.reborrows.reborrow.withdraw.Restores ms e.reborrow := by
  obtain ⟨span, type, usage, kind⟩ := e
  by_cases hu : Expr.HoldsUnique ⟨span, type, usage, kind⟩
  · obtain ⟨hp, inner, rfl⟩ := hu
    have hp' := (Expr.isPlace_reborrows ⟨span, .borrow .unique inner, usage, kind⟩).trans hp
    rw [Expr.reborrow_of_holdsUnique hp' rfl, Expr.reborrow_of_holdsUnique hp rfl]
    simp only [Expr.withdraw, ExprKind.withdraw]
    exact ((h.map _).map _).map _ |>.map _
  · rw [Expr.reborrow_eq_self hu, Expr.reborrow_eq_self (mt (Expr.holdsUnique_reborrows _).mp hu)]
    exact h

theorem restores_argMarks (es : List Expr) :
    (Undo.marks (argReborrows es).length).Restores (es.map Expr.holdsUnique)
      (es.map Expr.holdsUnique) := by
  have hlength : (argReborrows es).length = (es.map Expr.holdsUnique).length := by
    rw [argReborrows_eq_map, List.length_map, List.length_map]
  rw [hlength]
  exact Undo.restores_marks _

/-- Arguments that come back borrowed again are stripped by their marks. -/
theorem Undo.Restores.stripped {α : Type} {c : Undo (List Expr)} {es : List Expr} {ms : List Bool}
    (h : c.Restores ms (es.map Expr.reborrow)) (g : List Expr → α) :
    Undo.Restores
      (c >>= fun items => pure (g (List.zipWith Expr.beneath (es.map Expr.holdsUnique) items)))
      ms (g es) := by
  have hmap := h.map fun items => g (List.zipWith Expr.beneath (es.map Expr.holdsUnique) items)
  rwa [zipWith_beneath_reborrow] at hmap

mutual

theorem Ty.restores : ∀ t : Ty, t.reborrows.withdraw.Restores (marks t.nodes) t
  | .array inner none => by
    rw [Ty.reborrows, Ty.withdraw, Ty.nodes]
    exact inner.restores.map (Ty.array · none)
  | .array inner (some size) => by
    rw [Ty.reborrows, Ty.withdraw, Ty.nodes, marks_append]
    exact inner.restores.bind (size.restores.map fun size => Ty.array inner (some size))
  | .borrow kind inner => by
    rw [Ty.reborrows, Ty.withdraw, Ty.nodes]
    exact inner.restores.map (Ty.borrow kind)
  | .tuple items => by
    rw [Ty.reborrows, Ty.withdraw, Ty.nodes]
    exact (tysRestores items).map Ty.tuple
  | .path ⟨key, args⟩ => by
    rw [Ty.reborrows, Ty.withdraw, Ty.nodes]
    exact (tysRestores args).map fun args => Ty.path ⟨key, args⟩
  | .unit => Undo.restores_pure Ty.unit
  | .primitive scalar => Undo.restores_pure (Ty.primitive scalar)
  | .generic name => Undo.restores_pure (Ty.generic name)

theorem tysRestores : ∀ ts : List Ty,
    (tyWithdraw (tyReborrows ts)).Restores (marks (tyNodes ts)) ts
  | [] => Undo.restores_pure []
  | t :: ts => by
    rw [tyReborrows, tyWithdraw, tyNodes, marks_append]
    exact t.restores.bind ((tysRestores ts).map (t :: ·))

theorem Expr.restores : ∀ e : Expr, e.reborrows.withdraw.Restores (marks e.nodes) e
  | ⟨span, type, usage, kind⟩ => by
    rw [Expr.reborrows, Expr.withdraw, Expr.nodes, marks_cons]
    exact kind.restores.map (Expr.mk span type usage)

/-- The marks of a node stand before those of its parts. -/
theorem ExprKind.restores : ∀ kind : ExprKind,
    kind.reborrows.withdraw.Restores (kind.given.map Expr.holdsUnique ++ marks kind.nodes) kind
  | .block statements tail => by
    rw [ExprKind.reborrows, ExprKind.withdraw, ExprKind.nodes, marks_append]
    exact (exprsRestore statements).bind ((optionRestores tail).map (ExprKind.block statements))
  | .letIn name type value => by
    rw [ExprKind.reborrows, ExprKind.withdraw, ExprKind.nodes, marks_append]
    exact type.restores.bind ((optionRestores value).map (ExprKind.letIn name type))
  | .assign place value => by
    rw [ExprKind.reborrows, ExprKind.withdraw, ExprKind.nodes, marks_append]
    have hvalue := value.restores.reborrow.map
      fun e => ExprKind.assign place (e.beneath value.holdsUnique)
    rw [value.beneath_reborrow] at hvalue
    exact (Undo.restores_mark value.holdsUnique).bind (place.restores.bind hvalue)
  | .ret value => by
    rw [ExprKind.reborrows, ExprKind.withdraw, ExprKind.nodes]
    exact (optionRestores value).map ExprKind.ret
  | .cond condition thenBranch elseBranch => by
    rw [ExprKind.reborrows, ExprKind.withdraw, ExprKind.nodes, marks_append, marks_append,
      List.append_assoc]
    exact condition.restores.bind (thenBranch.restores.bind
      ((optionRestores elseBranch).map (ExprKind.cond condition thenBranch)))
  | .matchOn value arms => by
    rw [ExprKind.reborrows, ExprKind.withdraw, ExprKind.nodes, marks_append]
    exact value.restores.bind ((armsRestore arms).map (ExprKind.matchOn value))
  | .borrow kind value => by
    rw [ExprKind.reborrows, ExprKind.withdraw, ExprKind.nodes]
    exact value.restores.map (ExprKind.borrow kind)
  | .deref value => by
    rw [ExprKind.reborrows, ExprKind.withdraw, ExprKind.nodes]
    exact value.restores.map ExprKind.deref
  | .index value index => by
    rw [ExprKind.reborrows, ExprKind.withdraw, ExprKind.nodes, marks_append]
    exact value.restores.bind (index.restores.map (ExprKind.index value))
  | .field value name => by
    rw [ExprKind.reborrows, ExprKind.withdraw, ExprKind.nodes]
    exact value.restores.map (ExprKind.field · name)
  | .localVar name slot => Undo.restores_pure (ExprKind.localVar name slot)
  | .item path => Undo.restores_pure (ExprKind.item path)
  | .literal value => Undo.restores_pure (ExprKind.literal value)
  | .cast value target => by
    rw [ExprKind.reborrows, ExprKind.withdraw, ExprKind.nodes, marks_append]
    exact value.restores.bind (target.restores.map (ExprKind.cast value))
  | .tuple items => by
    rw [ExprKind.reborrows, ExprKind.withdraw, ExprKind.nodes]
    exact (exprsRestore items).map ExprKind.tuple
  | .callPath path args => by
    rw [ExprKind.reborrows, ExprKind.withdraw, ExprKind.nodes]
    exact (restores_argMarks args).bind ((argsRestore args).stripped (ExprKind.callPath path))
  | .callValue callee args => by
    rw [ExprKind.reborrows, ExprKind.withdraw, ExprKind.nodes, marks_append]
    exact (restores_argMarks args).bind
      (callee.restores.bind ((argsRestore args).stripped (ExprKind.callValue callee)))
  | .callMethod receiver method args => by
    rw [ExprKind.reborrows, ExprKind.withdraw, ExprKind.nodes, marks_append]
    exact (restores_argMarks args).bind
      (receiver.restores.bind ((argsRestore args).stripped (ExprKind.callMethod receiver method)))
  | .binary op left right => by
    rw [ExprKind.reborrows, ExprKind.withdraw, ExprKind.nodes, marks_append]
    exact left.restores.bind (right.restores.map (ExprKind.binary op left))

theorem optionRestores : ∀ e : Option Expr,
    (optionWithdraw (optionReborrows e)).Restores (marks (optionNodes e)) e
  | none => Undo.restores_pure none
  | some e => by
    rw [optionReborrows, optionWithdraw, optionNodes]
    exact e.restores.map some

theorem exprsRestore : ∀ es : List Expr,
    (exprWithdraw (exprReborrows es)).Restores (marks (exprNodes es)) es
  | [] => Undo.restores_pure []
  | e :: es => by
    rw [exprReborrows, exprWithdraw, exprNodes, marks_append]
    exact e.restores.bind ((exprsRestore es).map (e :: ·))

/-- Arguments come back borrowed again, with their parts restored. -/
theorem argsRestore : ∀ es : List Expr,
    (exprWithdraw (argReborrows es)).Restores (marks (exprNodes es)) (es.map Expr.reborrow)
  | [] => Undo.restores_pure []
  | e :: es => by
    rw [argReborrows, exprWithdraw, exprNodes, marks_append, List.map_cons]
    exact e.restores.reborrow.bind ((argsRestore es).map (e.reborrow :: ·))

theorem armsRestore : ∀ arms : List Arm,
    (armWithdraw (armReborrows arms)).Restores (marks (armNodes arms)) arms
  | [] => Undo.restores_pure []
  | ⟨guard, code⟩ :: rest => by
    rw [armReborrows, armWithdraw, armNodes, marks_append, marks_append, List.append_assoc]
    exact (optionRestores guard).bind
      (code.restores.bind ((armsRestore rest).map (⟨guard, code⟩ :: ·)))

end

theorem Function.restores (d : Function) : d.reborrows.withdraw.Restores (marks d.nodes) d := by
  rw [Function.reborrows, Function.withdraw, Function.nodes, marks_append, marks_append,
    List.append_assoc]
  exact (Undo.restores_named Ty.restores d.args).bind
    (d.ret.restores.bind ((optionRestores d.code).map (Function.mk d.args d.ret)))

theorem Global.restores (d : Global) : d.reborrows.withdraw.Restores (marks d.nodes) d := by
  rw [Global.reborrows, Global.withdraw, Global.nodes, marks_append]
  exact d.type.restores.bind ((optionRestores d.value).map (Global.mk d.type))

theorem Variant.restores (v : Variant) : v.reborrows.withdraw.Restores (marks v.nodes) v := by
  cases v with
  | unit => exact Undo.restores_pure unit
  | value discriminant => exact discriminant.restores.map value
  | tuple types => exact (tysRestores types).map tuple
  | fields types => exact (Undo.restores_named Ty.restores types).map fields

theorem TraitItem.restores : ∀ {item after : TraitItem},
    item.reborrows = .ok after → after.withdraw.Restores (marks item.nodes) item
  | .method body, _, hi => by
    cases hi
    exact body.restores.map method
  | .const type none, _, hi => by
    cases hi
    rw [TraitItem.withdraw, TraitItem.nodes, marks_append]
    exact type.restores.bind ((optionRestores none).map (const type))
  | .const _ (some _), _, hi => by cases hi

theorem traitItemsRestore {items after : List (String × TraitItem)}
    (hi : traitReborrows items = .ok after) :
    Undo.Restores (after.mapM (Undo.named TraitItem.withdraw))
      (marks (items.flatMap (·.2.nodes))) items := by
  induction items generalizing after with
  | nil =>
    cases hi
    exact Undo.restores_pure []
  | cons item rest ih =>
    obtain ⟨name, item⟩ := item
    simp only [traitReborrows, List.mapM_cons, Result.bind_eq_ok, Result.pure_eq_ok] at hi
    obtain ⟨_, ⟨after, hitem, rfl⟩, rest', hrest, rfl⟩ := hi
    rw [List.mapM_cons, List.flatMap_cons, marks_append]
    exact ((TraitItem.restores hitem).map (name, ·)).bind ((ih hrest).map ((name, item) :: ·))

mutual

theorem Item.restores : ∀ {item after : Item},
    item.reborrows = .ok after → after.withdraw.Restores (marks item.nodes) item
  | .function body, _, hi => by
    cases hi
    exact body.restores.map Item.function
  | .static body, _, hi => by
    cases hi
    exact body.restores.map Item.static
  | .const body, _, hi => by
    cases hi
    exact body.restores.map Item.const
  | .struct fields, _, hi => by
    cases hi
    exact (Undo.restores_named Ty.restores fields).map Item.struct
  | .enum variants, _, hi => by
    cases hi
    exact (Undo.restores_named Variant.restores variants).map Item.enum
  | .typeAlias target, _, hi => by
    cases hi
    exact target.restores.map Item.typeAlias
  | .traitDef items, _, hi => by
    simp only [Item.reborrows, Result.bind_eq_ok, Result.pure_eq_ok] at hi
    obtain ⟨items, hi, rfl⟩ := hi
    exact (traitItemsRestore hi).map Item.traitDef
  | .module ⟨items⟩, _, hi => by
    simp only [Item.reborrows, Result.bind_eq_ok, Result.pure_eq_ok] at hi
    obtain ⟨items, hi, rfl⟩ := hi
    exact (itemsRestore hi).map fun items => Item.module ⟨items⟩

theorem itemsRestore : ∀ {items after : List (String × Item)},
    itemReborrows items = .ok after → (itemWithdraw after).Restores (marks (itemNodes items)) items
  | [], _, hi => by
    cases hi
    exact Undo.restores_pure []
  | (name, item) :: rest, _, hi => by
    simp only [itemReborrows, Result.bind_eq_ok, Result.pure_eq_ok] at hi
    obtain ⟨after, hitem, rest', hrest, rfl⟩ := hi
    rw [itemWithdraw, itemNodes, marks_append]
    exact (Item.restores hitem).bind ((itemsRestore hrest).map ((name, item) :: ·))

end

theorem Impl.restores (d : Impl) : d.reborrows.withdraw.Restores (marks d.nodes) d := by
  rw [Impl.reborrows, Impl.withdraw, Impl.nodes, marks_append, marks_append, List.append_assoc]
  exact d.selfType.restores.bind ((Undo.restores_named Function.restores d.methods).bind
    ((Undo.restores_named Global.restores d.consts).map
      (Impl.mk d.traitPath d.selfType d.methods)))

theorem Program.restores {p after : Program} (hp : p.reborrows = .ok after) :
    after.withdraw.Restores (marks p.nodes) p := by
  obtain ⟨⟨sources⟩, impls⟩ := p
  simp only [Program.reborrows, Result.bind_eq_ok, Result.pure_eq_ok] at hp
  obtain ⟨items, hi, rfl⟩ := hp
  rw [Program.withdraw, Program.nodes, marks_append, marks_flatMap]
  have himpls : Undo.Restores ((impls.map Impl.reborrows).mapM Impl.withdraw)
      (impls.flatMap fun d => marks d.nodes) impls := Undo.Restores.mapM fun d _ => d.restores
  exact (itemsRestore hi).bind (himpls.map (Program.mk ⟨sources⟩))

/-- Reborrowing only inserts borrows. Everything that is assigned or passed is its own result, in its
old place, behind a new borrow where it is a place that holds a `&mut`, and keeps its type, span and
usage; targets and receivers keep their nodes; and without the new borrows, one for each such place,
the program is the one that was given. -/
theorem Program.reborrows_insert_only (p after : Program) (h : p.reborrows = .ok after) :
    List.Forall₂ (fun e e' => e.GivenAs e' ∧
        e'.type = e.type ∧ e'.span = e.span ∧ e'.usage = e.usage) p.given after.given ∧
      List.Forall₂ (fun e e' => e' = e.reborrows ∧ e'.root = e.root) p.used after.used ∧
      after.withdraw.run (p.given.map Expr.holdsUnique) = (p, []) := by
  have hgiven : after.given = p.given.map fun e => e.reborrows.reborrow := rewrites_given.program h
  have hused : after.used = p.used.map Expr.reborrows := rewrites_used.program h
  have hundo := Program.restores h []
  rw [List.append_nil] at hundo
  refine ⟨?_, ?_, hundo⟩
  · rw [hgiven, List.forall₂_map_right_iff, List.forall₂_same]
    exact fun e _ => ⟨e.givenAs_reborrow, e.givenAs_reborrow.annotations⟩
  · rw [hused, List.forall₂_map_right_iff, List.forall₂_same]
    exact fun e _ => ⟨rfl, e.root_reborrows⟩

/-- The call `f(x)` becomes `f(&mut *x)`, and without the borrow it is `f(x)` again. -/
theorem Program.reborrows_insert_only_passOn : ∃ after, Program.passOn.reborrows = .ok after ∧
    Program.passOn.given.map Expr.holdsUnique = [true, true] ∧
    List.Forall₂ (fun e e' => e.GivenAs e' ∧
        e'.type = e.type ∧ e'.span = e.span ∧ e'.usage = e.usage) Program.passOn.given after.given ∧
      List.Forall₂ (fun e e' => e' = e.reborrows ∧ e'.root = e.root)
        Program.passOn.used after.used ∧
      after.withdraw.run (Program.passOn.given.map Expr.holdsUnique) = (Program.passOn, []) :=
  ⟨_, rfl, rfl, Program.reborrows_insert_only .passOn _ rfl⟩

end BorrowLang.Typed
