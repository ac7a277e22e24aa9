import BorrowLang.Report
import BorrowLang.Typed.Item

/-!
Reborrowing. Where an assignment or a call would move a `&mut` out of the place that holds it, the
place is borrowed again instead, `&mut *e` for `e`.
-/
namespace BorrowLang.Typed

/-- The place borrowed again when it holds a `&mut`, and otherwise the expression as it is. -/
def Expr.reborrow (e : Expr) : Expr :=
  match e.type, e.isPlace with
  | .borrow .unique inner, true =>
    ⟨e.span, e.type, e.usage, .borrow .unique ⟨e.span, inner, .unknown, .deref e⟩⟩
  | _, _ => e

mutual

/-- The sizes inside a type with their reborrows. -/
def Ty.reborrows : Ty → Ty
  | .array inner none => .array inner.reborrows none
  | .array inner (some size) => .array inner.reborrows (some size.reborrows)
  | .borrow kind inner => .borrow kind inner.reborrows
  | .tuple items => .tuple (tyReborrows items)
  | .path ⟨key, args⟩ => .path ⟨key, tyReborrows args⟩
  | .unit => .unit
  | .primitive scalar => .primitive scalar
  | .generic name => .generic name

def tyReborrows : List Ty → List Ty
  | [] => []
  | t :: ts => t.reborrows :: tyReborrows ts

/-- The expression with the reborrows that its parts need; its own type is left as it is. -/
def Expr.reborrows : Expr → Expr
  | ⟨span, type, usage, kind⟩ => ⟨span, type, usage, kind.reborrows⟩

/-- Values that are assigned or passed are borrowed again, receivers and callees are not. -/
def ExprKind.reborrows : ExprKind → ExprKind
  | .block statements tail => .block (exprReborrows statements) (optionReborrows tail)
  | .letIn name type value => .letIn name type.reborrows (optionReborrows value)
  | .assign place value => .assign place.reborrows value.reborrows.reborrow
  | .ret value => .ret (optionReborrows value)
  | .cond condition thenBranch elseBranch =>
    .cond condition.reborrows thenBranch.reborrows (optionReborrows elseBranch)
  | .matchOn value arms => .matchOn value.reborrows (armReborrows arms)
  | .borrow kind value => .borrow kind value.reborrows
  | .deref value => .deref value.reborrows
  | .index value index => .index value.reborrows index.reborrows
  | .field value name => .field value.reborrows name
  | .localVar name slot => .localVar name slot
  | .item path => .item path
  | .literal value => .literal value
  | .cast value target => .cast value.reborrows target.reborrows
  | .tuple items => .tuple (exprReborrows items)
  | .callPath path args => .callPath path (argReborrows args)
  | .callValue callee args => .callValue callee.reborrows (argReborrows args)
  | .callMethod receiver method args =>
    .callMethod receiver.reborrows method (argReborrows args)
  | .binary op left right => .binary op left.reborrows right.reborrows

def optionReborrows : Option Expr → Option Expr
  | none => none
  | some e => some e.reborrows

def exprReborrows : List Expr → List Expr
  | [] => []
  | e :: es => e.reborrows :: exprReborrows es

def argReborrows : List Expr → List Expr
  | [] => []
  | e :: es => e.reborrows.reborrow :: argReborrows es

def armReborrows : List Arm → List Arm
  | [] => []
  | ⟨guard, code⟩ :: rest => ⟨optionReborrows guard, code.reborrows⟩ :: armReborrows rest

end

def Function.reborrows (d : Function) : Function where
  args := d.args.map fun (name, t) => (name, t.reborrows)
  ret := d.ret.reborrows
  code := optionReborrows d.code

def Global.reborrows (d : Global) : Global := ⟨d.type.reborrows, optionReborrows d.value⟩

def fieldReborrows (fields : List (String × Ty)) : List (String × Ty) :=
  fields.map fun (name, t) => (name, t.reborrows)

def Variant.reborrows : Variant → Variant
  | unit => unit
  | value discriminant => value discriminant.reborrows
  | tuple types => tuple (tyReborrows types)
  | fields types => fields (fieldReborrows types)

/-- A default for a constant of a trait has no place in a final program. -/
def TraitItem.reborrows : TraitItem → Result TraitItem
  | method body => return method body.reborrows
  | const type none => return const type.reborrows none
  | const _ (some default) =>
    throw (.invariantViolation "free-standing expression reached the reborrow pass" default.span)

def traitReborrows (items : List (String × TraitItem)) : Result (List (String × TraitItem)) :=
  items.mapM fun (name, item) => return (name, ← item.reborrows)

mutual

def Item.reborrows : Item → Result Item
  | .function body => return .function body.reborrows
  | .static body => return .static body.reborrows
  | .const body => return .const body.reborrows
  | .struct fields => return .struct (fieldReborrows fields)
  | .enum variants => return .enum (variants.map fun (name, v) => (name, v.reborrows))
  | .typeAlias target => return .typeAlias target.reborrows
  | .traitDef items => return .traitDef (← traitReborrows items)
  | .module ⟨items⟩ => return .module ⟨← itemReborrows items⟩

def itemReborrows : List (String × Item) → Result (List (String × Item))
  | [] => return []
  | (name, item) :: rest => return (name, ← item.reborrows) :: (← itemReborrows rest)

end

def Impl.reborrows (d : Impl) : Impl where
  traitPath := d.traitPath
  selfType := d.selfType.reborrows
  methods := d.methods.map fun (name, f) => (name, f.reborrows)
  consts := d.consts.map fun (name, c) => (name, c.reborrows)

/-- The program with every reborrow it needs. -/
def Program.reborrows (p : Program) : Result Program :=
  return ⟨⟨← itemReborrows p.root.items⟩, p.impls.map Impl.reborrows⟩

example (span : Span) : (Expr.mk span (.borrow .unique .unit) .move (.localVar "x" 0)).reborrow =
    ⟨span, .borrow .unique .unit, .move, .borrow .unique
      ⟨span, .unit, .unknown, .deref ⟨span, .borrow .unique .unit, .move, .localVar "x" 0⟩⟩⟩ := rfl

end BorrowLang.Typed
