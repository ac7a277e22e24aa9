import Mathlib.Tactic.SplitIfs
import BorrowLang.Proofs.CheckedFunctions
import BorrowLang.Proofs.ExprSteps

/-!
What a check makes of a program. Types are written into its expressions, lets, casts and function
arguments, and implicit dereferences are made explicit; all else is kept.
-/
namespace BorrowLang

/-- The second expression is the first behind zero or more dereferences, each marked with the span
of the first. -/
inductive Expr.Behind : Expr → Expr → Prop
  | here (e : Expr) : Behind e e
  | deref {e outer : Expr} (type : Ty) : Behind e outer → Behind e ⟨.deref outer, type, e.span⟩

mutual

/-- The second expression is the first with other types. -/
inductive Expr.ElaboratesTo : Expr → Expr → Prop
  | mk {kind kind' : ExprKind} (type type' : Ty) (span : Span) : ExprKind.ElaboratesTo kind kind' →
    Expr.ElaboratesTo ⟨kind, type, span⟩ ⟨kind', type', span⟩

/-- The parts elaborate in their places. The object of a field and the receiver of a method may be
dereferenced. -/
inductive ExprKind.ElaboratesTo : ExprKind → ExprKind → Prop
  | block {statements statements' : List Expr} {tail tail' : Option Expr} (traits : List Path)
    (aliases : List (String × Ty)) :
    List.Forall₂ Expr.ElaboratesTo statements statements' →
      Option.Rel Expr.ElaboratesTo tail tail' →
      ExprKind.ElaboratesTo (.block ⟨statements, tail, traits, aliases⟩)
        (.block ⟨statements', tail', traits, aliases⟩)
  | letIn (pattern : Pattern) (type type' : Ty) {value value' : Expr} :
    Expr.ElaboratesTo value value' →
      ExprKind.ElaboratesTo (.letIn pattern type value) (.letIn pattern type' value')
  | assign {place place' value value' : Expr} :
    Expr.ElaboratesTo place place' → Expr.ElaboratesTo value value' →
      ExprKind.ElaboratesTo (.assign place value) (.assign place' value')
  | ret {value value' : Option Expr} :
    Option.Rel Expr.ElaboratesTo value value' → ExprKind.ElaboratesTo (.ret value) (.ret value')
  | cond {condition condition' thenBranch thenBranch' : Expr}
    {elseBranch elseBranch' : Option Expr} :
    Expr.ElaboratesTo condition condition' → Expr.ElaboratesTo thenBranch thenBranch' →
      Option.Rel Expr.ElaboratesTo elseBranch elseBranch' →
      ExprKind.ElaboratesTo (.cond condition thenBranch elseBranch)
        (.cond condition' thenBranch' elseBranch')
  | matchOn {value value' : Expr} {arms arms' : List Arm} :
    Expr.ElaboratesTo value value' → List.Forall₂ Arm.ElaboratesTo arms arms' →
      ExprKind.ElaboratesTo (.matchOn value arms) (.matchOn value' arms')
  | callPath (path : Path) {args args' : List Expr} :
    List.Forall₂ Expr.ElaboratesTo args args' →
      ExprKind.ElaboratesTo (.callPath path args) (.callPath path args')
  | callMethod {receiver receiver' outer : Expr} (method : Segment) {args args' : List Expr} :
    Expr.ElaboratesTo receiver receiver' → receiver'.Behind outer →
      List.Forall₂ Expr.ElaboratesTo args args' →
      ExprKind.ElaboratesTo (.callMethod receiver method args) (.callMethod outer method args')
  | callValue {callee callee' : Expr} {args args' : List Expr} :
    Expr.ElaboratesTo callee callee' → List.Forall₂ Expr.ElaboratesTo args args' →
      ExprKind.ElaboratesTo (.callValue callee args) (.callValue callee' args')
  | named (path : Path) : ExprKind.ElaboratesTo (.named path) (.named path)
  | field {object object' outer : Expr} (name : String) :
    Expr.ElaboratesTo object object' → object'.Behind outer →
      ExprKind.ElaboratesTo (.field object name) (.field outer name)
  | index {value value' index index' : Expr} :
    Expr.ElaboratesTo value value' → Expr.ElaboratesTo index index' →
      ExprKind.ElaboratesTo (.index value index) (.index value' index')
  | deref {value value' : Expr} :
    Expr.ElaboratesTo value value' → ExprKind.ElaboratesTo (.deref value) (.deref value')
  | borrow (kind : BorrowKind) {value value' : Expr} :
    Expr.ElaboratesTo value value' →
      ExprKind.ElaboratesTo (.borrow kind value) (.borrow kind value')
  | cast {value value' : Expr} (target target' : Ty) :
    Expr.ElaboratesTo value value' →
      ExprKind.ElaboratesTo (.cast value target) (.cast value' target')
  | tuple {items items' : List Expr} :
    List.Forall₂ Expr.ElaboratesTo items items' →
      ExprKind.ElaboratesTo (.tuple items) (.tuple items')
  | literal (value : Literal) : ExprKind.ElaboratesTo (.literal value) (.literal value)
  | binary (op : BinaryOp) {left left' right right' : Expr} :
    Expr.ElaboratesTo left left' → Expr.ElaboratesTo right right' →
      ExprKind.ElaboratesTo (.binary op left right) (.binary op left' right')

inductive Arm.ElaboratesTo : Arm → Arm → Prop
  | mk (patterns : List Pattern) {guard guard' : Option Expr} {code code' : Expr} :
    Option.Rel Expr.ElaboratesTo guard guard' → Expr.ElaboratesTo code code' →
      Arm.ElaboratesTo ⟨patterns, guard, code⟩ ⟨patterns, guard', code'⟩

end

/-- The arguments keep their patterns, the function its name, parameters, return type and span. -/
structure Function.ElaboratesTo (d d' : Function) : Prop where
  kept : d' = { d with args := d'.args, code := d'.code }
  args : List.Forall₂ (fun arg arg' => arg'.pattern = arg.pattern) d.args d'.args
  code : Option.Rel Expr.ElaboratesTo d.code d'.code

/-- Functions elaborate, constants and types stay. -/
inductive ImplItem.ElaboratesTo : ImplItem → ImplItem → Prop
  | function (name : String) {d d' : Function} :
    d.ElaboratesTo d' → ElaboratesTo ⟨name, .function d⟩ ⟨name, .function d'⟩
  | const (name : String) (type : Ty) (value : Expr) :
    ElaboratesTo ⟨name, .const type value⟩ ⟨name, .const type value⟩
  | type (name : String) (target : Ty) : ElaboratesTo ⟨name, .type target⟩ ⟨name, .type target⟩

mutual

inductive Module.ElaboratesTo (implMethods : Bool) : Module → Module → Prop
  | mk (name : String) (uses : List Path) {items items' : List Item} :
    List.Forall₂ (Item.ElaboratesTo implMethods) items items' →
      Module.ElaboratesTo implMethods ⟨name, uses, items⟩ ⟨name, uses, items'⟩

/-- Items without a body to check stay, and so do impls where their functions are not checked. -/
inductive Item.ElaboratesTo (implMethods : Bool) : Item → Item → Prop
  | function {d d' : Function} : Function.ElaboratesTo d d' →
    Item.ElaboratesTo implMethods (.function d) (.function d')
  | impl (d : ImplBlock) {items : List ImplItem} : implMethods = true →
    List.Forall₂ ImplItem.ElaboratesTo d.items items →
      Item.ElaboratesTo implMethods (.impl d) (.impl { d with items })
  | implKept (d : ImplBlock) : implMethods = false →
    Item.ElaboratesTo implMethods (.impl d) (.impl d)
  | module {m m' : Module} : Module.ElaboratesTo implMethods m m' →
    Item.ElaboratesTo implMethods (.module m) (.module m')
  | struct (d : StructDef) : Item.ElaboratesTo implMethods (.struct d) (.struct d)
  | enum (d : EnumDef) : Item.ElaboratesTo implMethods (.enum d) (.enum d)
  | traitDef (d : TraitDef) : Item.ElaboratesTo implMethods (.traitDef d) (.traitDef d)
  | static (d : StaticDef) : Item.ElaboratesTo implMethods (.static d) (.static d)
  | typeAlias (d : AliasDef) : Item.ElaboratesTo implMethods (.typeAlias d) (.typeAlias d)

end

namespace Expr

theorem Behind.span_eq {e outer : Expr} (h : e.Behind outer) : outer.span = e.span := by
  cases h <;> rfl

theorem Behind.derefTimes {e outer : Expr} (h : e.Behind outer) (n : Nat) :
    e.Behind (outer.derefTimes n) := by
  induction n generalizing outer with
  | zero => exact h
  | succ n ih => exact ih (h.span_eq ▸ .deref outer.type.peel h)

theorem behind_derefTimes (n : Nat) (e : Expr) : e.Behind (e.derefTimes n) :=
  (Behind.here e).derefTimes n

/-- The type written on the result does not matter. -/
theorem ElaboratesTo.retype {e e' : Expr} (h : e.ElaboratesTo e') (type : Ty) :
    e.ElaboratesTo { e' with type } := by
  cases h with
  | mk t t' span hk => exact .mk t type span hk

end Expr

namespace Check
variable (env : Env)

mutual

theorem expr_elaborates : ∀ (e : Expr) {expected : Ty} {frames after : Frames} {checked : Expr},
    (expr env e expected).run frames = (.ok checked, after) → e.ElaboratesTo checked
  | ⟨kind, t, span⟩, expected, frames, after, checked, h => by
    simp only [expr, bind_eq_ok, pure_eq_ok] at h
    obtain ⟨⟨found, type⟩, _, hk, rfl, rfl⟩ := h
    exact .mk t type span (exprKind_elaborates span kind hk)
termination_by structural e => e

theorem exprKind_elaborates (span : Span) : ∀ (kind : ExprKind) {expected : Ty}
    {frames after : Frames} {found : ExprKind} {type : Ty},
    (exprKind env span kind expected).run frames = (.ok (found, type), after) →
      kind.ElaboratesTo found
  | .block ⟨statements, none, traits, aliases⟩, expected, frames, after, found, type, h => by
    cases exprStep_of_run h with
    | blockUnit _ hs => exact .block traits aliases (exprs_elaborate _ hs) .none
  | .block ⟨statements, some tail, traits, aliases⟩, expected, frames, after, found, type, h => by
    cases exprStep_of_run h with
    | blockTail _ hs _ ht _ =>
      exact .block traits aliases (exprs_elaborate _ hs) (.some (expr_elaborates _ ht))
  | .letIn pattern declared value, expected, frames, after, found, type, h => by
    cases exprStep_of_run h with
    | letIn t _ hv _ _ _ => exact .letIn pattern declared t ((expr_elaborates _ hv).retype t)
  | .assign place value, expected, frames, after, found, type, h => by
    cases exprStep_of_run h with
    | assign hp hv _ => exact .assign (expr_elaborates _ hp) (expr_elaborates _ hv)
  | .ret value, expected, frames, after, found, type, h => by
    cases exprStep_of_run h with
    | ret hv => exact .ret (optional_elaborates _ hv)
  | .cond condition thenBranch none, expected, frames, after, found, type, h => by
    cases exprStep_of_run h with
    | condUnit hc ht _ => exact .cond (expr_elaborates _ hc) (expr_elaborates _ ht) .none
  | .cond condition thenBranch (some elseBranch), expected, frames, after, found, type, h => by
    cases exprStep_of_run h with
    | condElse hc ht he _ _ =>
      exact .cond (expr_elaborates _ hc) (expr_elaborates _ ht) (.some (expr_elaborates _ he))
  | .matchOn value arms, expected, frames, after, found, type, h => by
    cases exprStep_of_run h with
    | matchOn hv ha => exact .matchOn (expr_elaborates _ hv) (matchArms_elaborate span _ _ ha)
  | .callPath path args, expected, frames, after, found, type, h => by
    cases exprStep_of_run h with
    | callPath ha _ _ => exact .callPath path (exprs_elaborate _ ha)
  | .callMethod receiver method args, expected, frames, after, found, type, h => by
    cases exprStep_of_run h with
    | callMethod hr ha _ _ =>
      exact .callMethod method (expr_elaborates _ hr) (Expr.behind_derefTimes _ _)
        (exprs_elaborate _ ha)
  | .callValue callee args, expected, frames, after, found, type, h => by
    cases exprStep_of_run h with
    | callValue hc ha => exact .callValue (expr_elaborates _ hc) (exprs_elaborate _ ha)
  | .named path, expected, frames, after, found, type, h => by
    cases exprStep_of_run h with
    | localName _ _ => exact .named path
    | itemName _ _ _ => exact .named path
  | .field object name, expected, frames, after, found, type, h => by
    cases exprStep_of_run h with
    | fieldLater ho _ => exact .field name (expr_elaborates _ ho) (.here _)
    | field ho _ _ _ => exact .field name (expr_elaborates _ ho) (Expr.behind_derefTimes _ _)
  | .index value index, expected, frames, after, found, type, h => by
    cases exprStep_of_run h with
    | index hv hi _ => exact .index (expr_elaborates _ hv) (expr_elaborates _ hi)
  | .deref value, expected, frames, after, found, type, h => by
    cases exprStep_of_run h with
    | deref hv _ _ => exact .deref (expr_elaborates _ hv)
  | .borrow kind value, expected, frames, after, found, type, h => by
    cases exprStep_of_run h with
    | borrow _ hv _ => exact .borrow kind (expr_elaborates _ hv)
  | .cast value target, expected, frames, after, found, type, h => by
    cases exprStep_of_run h with
    | cast _ hv _ => exact .cast target _ (expr_elaborates _ hv)
  | .tuple items, expected, frames, after, found, type, h => by
    cases exprStep_of_run h with
    | tuple hi _ => exact .tuple (exprs_elaborate _ hi)
  | .literal value, expected, frames, after, found, type, h => by
    cases exprStep_of_run h with
    | literal _ => exact .literal value
  | .binary op left right, expected, frames, after, found, type, h => by
    cases exprStep_of_run h with
    | binary hl hr _ _ => exact .binary op (expr_elaborates _ hl) (expr_elaborates _ hr)
termination_by structural kind => kind

theorem exprs_elaborate : ∀ (es : List Expr) {frames after : Frames} {checked : List Expr},
    (exprs env es).run frames = (.ok checked, after) → List.Forall₂ Expr.ElaboratesTo es checked
  | [], frames, after, checked, h => by
    simp only [exprs, pure_eq_ok] at h
    obtain ⟨rfl, -⟩ := h
    exact .nil
  | e :: es, frames, after, checked, h => by
    simp only [exprs, bind_eq_ok, pure_eq_ok] at h
    obtain ⟨e, _, he, es, _, hes, rfl, -⟩ := h
    exact .cons (expr_elaborates _ he) (exprs_elaborate _ hes)
termination_by structural es => es

theorem optional_elaborates : ∀ (e : Option Expr) {frames after : Frames} {checked : Option Expr},
    (optional env e).run frames = (.ok checked, after) → Option.Rel Expr.ElaboratesTo e checked
  | none, frames, after, checked, h => by
    simp only [optional, pure_eq_ok] at h
    obtain ⟨rfl, -⟩ := h
    exact .none
  | some e, frames, after, checked, h => by
    simp only [optional, bind_eq_ok, pure_eq_ok] at h
    obtain ⟨e, _, he, rfl, -⟩ := h
    exact .some (expr_elaborates _ he)
termination_by structural e => e

theorem matchArms_elaborate (span : Span) (scrutinee : Ty) : ∀ (arms : List Arm) {expected : Ty}
    {frames after : Frames} {checked : List Arm} {type : Ty},
    (matchArms env span scrutinee arms expected).run frames = (.ok (checked, type), after) →
      List.Forall₂ Arm.ElaboratesTo arms checked
  | [], expected, frames, after, checked, type, h => by
    simp only [matchArms, pure_eq_ok, Prod.mk.injEq] at h
    obtain ⟨⟨rfl, rfl⟩, -⟩ := h
    exact .nil
  | ⟨patterns, guard, code⟩ :: rest, expected, frames, after, checked, type, h => by
    obtain ⟨_, arms, t, _, rfl, ⟨_, hg, _, hc, _⟩, hr⟩ := armStep_of_run h
    exact .cons (.mk patterns (optional_elaborates _ hg) (expr_elaborates _ hc))
      (matchArms_elaborate span scrutinee rest hr)
termination_by structural arms => arms

end

theorem functionArgs_patterns {span : Span} {args checked : List FunctionArg}
    {frames after : Frames} (h : (functionArgs env span args).run frames = (.ok checked, after)) :
    List.Forall₂ (fun arg arg' => arg'.pattern = arg.pattern) args checked := by
  induction args generalizing frames after checked with
  | nil =>
    simp only [functionArgs, pure_eq_ok] at h
    obtain ⟨rfl, -⟩ := h
    exact .nil
  | cons arg rest ih =>
    obtain ⟨pattern, type⟩ := arg
    simp only [functionArgs, bind_eq_ok, pure_eq_ok] at h
    obtain ⟨type, _, -, -, _, -, rest, _, hr, rfl, -⟩ := h
    exact .cons rfl (ih hr)

theorem function_elaborates {d checked : Function} {frames after : Frames}
    (h : (function env d).run frames = (.ok checked, after)) : d.ElaboratesTo checked := by
  obtain ⟨ret, mid, -, ha, hkept, hbody⟩ := function_eq_ok env h
  refine ⟨hkept, functionArgs_patterns env ha, ?_⟩
  obtain ⟨hnone, hnone'⟩ | ⟨body, code, last, hbody, hcode, he⟩ := hbody
  · rw [hnone, hnone']
    exact .none
  · rw [hbody, hcode]
    exact .some (expr_elaborates env _ he)

theorem implItems_elaborate {items checked : List ImplItem} {frames after : Frames}
    (h : (implItems env items).run frames = (.ok checked, after)) :
    List.Forall₂ ImplItem.ElaboratesTo items checked := by
  induction items generalizing frames after checked with
  | nil =>
    simp only [implItems, pure_eq_ok] at h
    obtain ⟨rfl, -⟩ := h
    exact .nil
  | cons item rest ih =>
    obtain ⟨name, member⟩ := item
    cases member with
    | function body =>
      simp only [implItems, bind_eq_ok, pure_eq_ok] at h
      obtain ⟨body, _, hb, rest, _, hr, rfl, -⟩ := h
      exact .cons (.function name (function_elaborates env hb)) (ih hr)
    | const type value =>
      simp only [implItems, bind_eq_ok, pure_eq_ok] at h
      obtain ⟨rest, _, hr, rfl, -⟩ := h
      exact .cons (.const name type value) (ih hr)
    | type target =>
      simp only [implItems, bind_eq_ok, pure_eq_ok] at h
      obtain ⟨rest, _, hr, rfl, -⟩ := h
      exact .cons (.type name target) (ih hr)

mutual

theorem module_elaborates (parents : List String) : ∀ (m : Module) {frames after : Frames}
    {checked : Module}, (module env parents m).run frames = (.ok checked, after) →
      m.ElaboratesTo env.options.implMethods checked
  | ⟨name, uses, held⟩, frames, after, checked, h => by
    simp only [Check.module, isolated_eq_ok, bind_eq_ok, pure_eq_ok] at h
    obtain ⟨⟨_, held, _, hi, rfl, -⟩, -⟩ := h
    exact .mk name uses (items_elaborate parents _ hi)

theorem item_elaborates (parents : List String) : ∀ (i : Item) {frames after : Frames}
    {checked : Item}, (item env parents i).run frames = (.ok checked, after) →
      i.ElaboratesTo env.options.implMethods checked
  | .function d, frames, after, checked, h => by
    simp only [item, bind_eq_ok, pure_eq_ok] at h
    obtain ⟨d, _, hd, rfl, -⟩ := h
    exact .function (function_elaborates env hd)
  | .impl d, frames, after, checked, h => by
    simp only [item] at h
    split_ifs at h with himpl
    · simp only [implBlock, inFrame_eq_ok, bind_eq_ok, pure_eq_ok] at h
      obtain ⟨_, _, ⟨_, ⟨-, _, -, items, _, hi, rfl, -⟩, -⟩, rfl, -⟩ := h
      exact .impl d himpl (implItems_elaborate env hi)
    · simp only [pure_eq_ok] at h
      obtain ⟨rfl, -⟩ := h
      exact .implKept d (Bool.eq_false_iff.mpr himpl)
  | .module m, frames, after, checked, h => by
    simp only [item, bind_eq_ok, pure_eq_ok] at h
    obtain ⟨m, _, hm, rfl, -⟩ := h
    exact .module (module_elaborates _ _ hm)
  | .struct d, frames, after, checked, h => by
    simp only [item, pure_eq_ok] at h
    exact h.1 ▸ .struct d
  | .enum d, frames, after, checked, h => by
    simp only [item, pure_eq_ok] at h
    exact h.1 ▸ .enum d
  | .traitDef d, frames, after, checked, h => by
    simp only [item, pure_eq_ok] at h
    exact h.1 ▸ .traitDef d
  | .static d, frames, after, checked, h => by
    simp only [item, pure_eq_ok] at h
    exact h.1 ▸ .static d
  | .typeAlias d, frames, after, checked, h => by
    simp only [item, pure_eq_ok] at h
    exact h.1 ▸ .typeAlias d

theorem items_elaborate (parents : List String) : ∀ (is : List Item) {frames after : Frames}
    {checked : List Item}, (items env parents is).run frames = (.ok checked, after) →
      List.Forall₂ (Item.ElaboratesTo env.options.implMethods) is checked
  | [], frames, after, checked, h => by
    simp only [items, pure_eq_ok] at h
    obtain ⟨rfl, -⟩ := h
    exact .nil
  | i :: is, frames, after, checked, h => by
    simp only [items, bind_eq_ok, pure_eq_ok] at h
    obtain ⟨checkedItem, _, hi, rest, _, hr, rfl, -⟩ := h
    exact .cons (item_elaborates parents i hi) (items_elaborate parents is hr)

end

end Check

/-- An accepted program is its source with types written into the expressions, lets, casts and
arguments of checked functions and with dereferences around the objects of fields and the receivers
of methods: every other part is kept, in order. -/
theorem Program.check_elaborates (p : Program) (options : CheckOptions) (root : Module)
    (h : p.check options = .ok root) : p.root.ElaboratesTo options.implMethods root := by
  have hr : (Check.module ⟨p.symbols, options⟩ [] p.root).run [] =
      (.ok root, ((Check.module ⟨p.symbols, options⟩ [] p.root).run []).2) := Prod.ext h rfl
  exact Check.module_elaborates _ [] p.root hr

/-- In source form, `struct Cell { value: u8 } fn read(cell: &&Cell) -> u8 { cell.value }`. -/
def Module.cellReader : Module :=
  let raw (kind : ExprKind) : Expr := ⟨kind, .wildcard, default⟩
  let cell : Ty := .path ⟨true, [⟨"Cell", []⟩], .structType "::Cell"⟩
  ⟨"", [], [
    .struct ⟨"Cell", ⟨[], []⟩, [⟨"value", .primitive .u8, default⟩], default⟩,
    .function
      { name := "read"
        params := ⟨[], []⟩
        args := [⟨.identifier "cell" .immutable default, .borrow .shared (.borrow .shared cell)⟩]
        ret := .primitive .u8
        code := some (raw (.field (raw (.named (.bare "cell"))) "value"))
        span := default }]⟩

/-- Both references of the argument are removed by dereferences. -/
theorem Program.check_elaborates_cellReader :
    ∃ (p : Program) (root : Module) (d : Function) (code object : Expr),
    Program.ofModule .cellReader = .ok p ∧ p.check .standard = .ok root ∧
      p.root.ElaboratesTo true root ∧ root.items[1]? = some (.function d) ∧ d.code = some code ∧
      code.kind = .field (object.derefTimes 2) "value" ∧ object.kind = .named (.bare "cell") :=
  ⟨_, _, _, _, _, rfl, rfl, Program.check_elaborates _ .standard _ rfl, rfl, rfl, rfl, rfl⟩

end BorrowLang
