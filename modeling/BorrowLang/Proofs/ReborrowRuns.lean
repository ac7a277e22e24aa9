import BorrowLang.Proofs.Reborrow

/-! Reborrowing finds nothing left to do in a program it has gone over. -/
namespace BorrowLang.Typed

mutual

theorem Ty.reborrows_of_settled : ∀ {t : Ty}, Settled t.nodes → t.reborrows = t
  | .array inner none, h => by
    rw [Ty.reborrows, inner.reborrows_of_settled h]
  | .array inner (some size), h => by
    rw [Ty.nodes, settled_append] at h
    rw [Ty.reborrows, Ty.reborrows_of_settled h.1, Expr.reborrows_of_settled h.2]
  | .borrow kind inner, h => by
    rw [Ty.reborrows, inner.reborrows_of_settled h]
  | .tuple items, h => by
    rw [Ty.reborrows, tyReborrows_of_settled h]
  | .path ⟨key, args⟩, h => by
    rw [Ty.reborrows, tyReborrows_of_settled h]
  | .unit, _ | .primitive _, _ | .generic _, _ => rfl

theorem tyReborrows_of_settled : ∀ {ts : List Ty}, Settled (tyNodes ts) → tyReborrows ts = ts
  | [], _ => rfl
  | t :: ts, h => by
    rw [tyNodes, settled_append] at h
    rw [tyReborrows, Ty.reborrows_of_settled h.1, tyReborrows_of_settled h.2]

/-- An expression that gives nothing away needs no reborrow. -/
theorem Expr.reborrows_of_settled : ∀ {e : Expr}, Settled e.nodes → e.reborrows = e
  | ⟨span, type, usage, kind⟩, h => by
    rw [Expr.nodes, settled_cons] at h
    rw [Expr.reborrows, ExprKind.reborrows_of_settled h.1 h.2]

theorem ExprKind.reborrows_of_settled : ∀ {kind : ExprKind},
    (∀ x ∈ kind.given, ¬x.HoldsUnique) → Settled kind.nodes → kind.reborrows = kind
  | .block statements tail, _, h => by
    rw [ExprKind.nodes, settled_append] at h
    rw [ExprKind.reborrows, exprReborrows_of_settled h.1, optionReborrows_of_settled h.2]
  | .letIn name type value, _, h => by
    rw [ExprKind.nodes, settled_append] at h
    rw [ExprKind.reborrows, Ty.reborrows_of_settled h.1, optionReborrows_of_settled h.2]
  | .assign place value, hg, h => by
    rw [ExprKind.nodes, settled_append] at h
    have hv : ¬value.HoldsUnique := hg value (List.mem_singleton_self value)
    rw [ExprKind.reborrows, Expr.reborrows_of_settled h.1, Expr.reborrows_of_settled h.2,
      Expr.reborrow_eq_self hv]
  | .ret value, _, h => by
    rw [ExprKind.reborrows, optionReborrows_of_settled h]
  | .cond condition thenBranch elseBranch, _, h => by
    rw [ExprKind.nodes, settled_append, settled_append] at h
    rw [ExprKind.reborrows, Expr.reborrows_of_settled h.1.1, Expr.reborrows_of_settled h.1.2,
      optionReborrows_of_settled h.2]
  | .matchOn value arms, _, h => by
    rw [ExprKind.nodes, settled_append] at h
    rw [ExprKind.reborrows, Expr.reborrows_of_settled h.1, armReborrows_of_settled h.2]
  | .borrow _ value, _, h | .deref value, _, h | .field value _, _, h => by
    rw [ExprKind.reborrows, Expr.reborrows_of_settled h]
  | .index value index, _, h => by
    rw [ExprKind.nodes, settled_append] at h
    rw [ExprKind.reborrows, Expr.reborrows_of_settled h.1, Expr.reborrows_of_settled h.2]
  | .localVar _ _, _, _ | .item _, _, _ | .literal _, _, _ => rfl
  | .cast value target, _, h => by
    rw [ExprKind.nodes, settled_append] at h
    rw [ExprKind.reborrows, Expr.reborrows_of_settled h.1, Ty.reborrows_of_settled h.2]
  | .tuple items, _, h => by
    rw [ExprKind.reborrows, exprReborrows_of_settled h]
  | .callPath path args, hg, h => by
    rw [ExprKind.given] at hg
    rw [ExprKind.reborrows, argReborrows_of_settled hg h]
  | .callValue callee args, hg, h => by
    rw [ExprKind.given] at hg
    rw [ExprKind.nodes, settled_append] at h
    rw [ExprKind.reborrows, Expr.reborrows_of_settled h.1,
      argReborrows_of_settled hg h.2]
  | .callMethod receiver method args, hg, h => by
    rw [ExprKind.given] at hg
    rw [ExprKind.nodes, settled_append] at h
    rw [ExprKind.reborrows, Expr.reborrows_of_settled h.1,
      argReborrows_of_settled hg h.2]
  | .binary op left right, _, h => by
    rw [ExprKind.nodes, settled_append] at h
    rw [ExprKind.reborrows, Expr.reborrows_of_settled h.1, Expr.reborrows_of_settled h.2]

theorem optionReborrows_of_settled : ∀ {e : Option Expr},
    Settled (optionNodes e) → optionReborrows e = e
  | none, _ => rfl
  | some e, h => by
    rw [optionReborrows, Expr.reborrows_of_settled h]

theorem exprReborrows_of_settled : ∀ {es : List Expr},
    Settled (exprNodes es) → exprReborrows es = es
  | [], _ => rfl
  | e :: es, h => by
    rw [exprNodes, settled_append] at h
    rw [exprReborrows, Expr.reborrows_of_settled h.1, exprReborrows_of_settled h.2]

theorem argReborrows_of_settled : ∀ {es : List Expr},
    (∀ x ∈ es, ¬x.HoldsUnique) → Settled (exprNodes es) → argReborrows es = es
  | [], _, _ => rfl
  | e :: es, hg, h => by
    rw [List.forall_mem_cons] at hg
    rw [exprNodes, settled_append] at h
    rw [argReborrows, Expr.reborrows_of_settled h.1, Expr.reborrow_eq_self hg.1,
      argReborrows_of_settled hg.2 h.2]

theorem armReborrows_of_settled : ∀ {arms : List Arm},
    Settled (armNodes arms) → armReborrows arms = arms
  | [], _ => rfl
  | ⟨guard, code⟩ :: rest, h => by
    rw [armNodes, settled_append, settled_append] at h
    rw [armReborrows, optionReborrows_of_settled h.1.1, Expr.reborrows_of_settled h.1.2,
      armReborrows_of_settled h.2]

end

/-! What is settled stays as it is, and one pass settles everything. -/

theorem Ty.reborrows_reborrows (t : Ty) : t.reborrows.reborrows = t.reborrows :=
  Ty.reborrows_of_settled t.settled_reborrows

theorem tyReborrows_tyReborrows (ts : List Ty) : tyReborrows (tyReborrows ts) = tyReborrows ts :=
  tyReborrows_of_settled (settled_tyReborrows ts)

theorem Expr.reborrows_reborrows (e : Expr) : e.reborrows.reborrows = e.reborrows :=
  Expr.reborrows_of_settled e.settled_reborrows

theorem optionReborrows_optionReborrows (e : Option Expr) :
    optionReborrows (optionReborrows e) = optionReborrows e :=
  optionReborrows_of_settled (settled_optionReborrows e)

/-- Named parts that a second rewriting leaves alone one by one are left alone together. -/
theorem map_snd_map_snd {α : Type} {g : α → α} (h : ∀ x, g (g x) = g x)
    (parts : List (String × α)) :
    (parts.map fun (name, x) => (name, g x)).map (fun (name, x) => (name, g x)) =
      parts.map fun (name, x) => (name, g x) := by
  rw [List.map_map]
  refine List.map_congr_left fun part _ => ?_
  exact congrArg (part.1, ·) (h part.2)

theorem Function.reborrows_reborrows (d : Function) : d.reborrows.reborrows = d.reborrows := by
  simp only [Function.reborrows, map_snd_map_snd Ty.reborrows_reborrows, Ty.reborrows_reborrows,
    optionReborrows_optionReborrows]

theorem Global.reborrows_reborrows (d : Global) : d.reborrows.reborrows = d.reborrows := by
  simp only [Global.reborrows, Ty.reborrows_reborrows, optionReborrows_optionReborrows]

theorem fieldReborrows_fieldReborrows (fields : List (String × Ty)) :
    fieldReborrows (fieldReborrows fields) = fieldReborrows fields :=
  map_snd_map_snd Ty.reborrows_reborrows fields

theorem Variant.reborrows_reborrows (v : Variant) : v.reborrows.reborrows = v.reborrows := by
  cases v with
  | unit => rfl
  | value discriminant => simp only [Variant.reborrows, Expr.reborrows_reborrows]
  | tuple types => simp only [Variant.reborrows, tyReborrows_tyReborrows]
  | fields types => simp only [Variant.reborrows, fieldReborrows_fieldReborrows]

/-- What is accepted once is accepted again, as it is. -/
theorem TraitItem.reborrows_again : ∀ {item after : TraitItem},
    item.reborrows = .ok after → after.reborrows = .ok after
  | .method body, _, h => by
    cases h
    rw [TraitItem.reborrows, body.reborrows_reborrows]
    rfl
  | .const type none, _, h => by
    cases h
    rw [TraitItem.reborrows, type.reborrows_reborrows]
    rfl
  | .const _ (some _), _, h => by cases h

theorem traitReborrows_again {items after : List (String × TraitItem)}
    (h : traitReborrows items = .ok after) : traitReborrows after = .ok after := by
  induction items generalizing after with
  | nil =>
    cases h
    rfl
  | cons item rest ih =>
    obtain ⟨name, item⟩ := item
    simp only [traitReborrows, List.mapM_cons, Result.bind_eq_ok, Result.pure_eq_ok] at h
    obtain ⟨_, ⟨item, hi, rfl⟩, rest, hr, rfl⟩ := h
    simp only [traitReborrows, List.mapM_cons, Result.bind_eq_ok, Result.pure_eq_ok]
    exact ⟨_, ⟨item, TraitItem.reborrows_again hi, rfl⟩, rest, ih hr, rfl⟩

mutual

theorem Item.reborrows_again : ∀ {item after : Item},
    item.reborrows = .ok after → after.reborrows = .ok after
  | .function body, _, h => by
    cases h
    rw [Item.reborrows, body.reborrows_reborrows]
    rfl
  | .static body, _, h | .const body, _, h => by
    cases h
    rw [Item.reborrows, body.reborrows_reborrows]
    rfl
  | .struct fields, _, h => by
    cases h
    rw [Item.reborrows, fieldReborrows_fieldReborrows]
    rfl
  | .enum variants, _, h => by
    cases h
    rw [Item.reborrows, map_snd_map_snd Variant.reborrows_reborrows]
    rfl
  | .typeAlias target, _, h => by
    cases h
    rw [Item.reborrows, target.reborrows_reborrows]
    rfl
  | .traitDef items, _, h => by
    simp only [Item.reborrows, Result.bind_eq_ok, Result.pure_eq_ok] at h
    obtain ⟨items, hi, rfl⟩ := h
    rw [Item.reborrows, traitReborrows_again hi]
    rfl
  | .module ⟨items⟩, _, h => by
    simp only [Item.reborrows, Result.bind_eq_ok, Result.pure_eq_ok] at h
    obtain ⟨items, hi, rfl⟩ := h
    rw [Item.reborrows, itemReborrows_again hi]
    rfl

theorem itemReborrows_again : ∀ {items after : List (String × Item)},
    itemReborrows items = .ok after → itemReborrows after = .ok after
  | [], _, h => by
    cases h
    rfl
  | (name, item) :: rest, _, h => by
    simp only [itemReborrows, Result.bind_eq_ok, Result.pure_eq_ok] at h
    obtain ⟨item, hi, rest, hr, rfl⟩ := h
    rw [itemReborrows, Item.reborrows_again hi, itemReborrows_again hr]
    rfl

end

theorem Impl.reborrows_reborrows (d : Impl) : d.reborrows.reborrows = d.reborrows := by
  simp only [Impl.reborrows, Ty.reborrows_reborrows, map_snd_map_snd Function.reborrows_reborrows,
    map_snd_map_snd Global.reborrows_reborrows]

theorem Program.reborrows_again {p after : Program} (h : p.reborrows = .ok after) :
    after.reborrows = .ok after := by
  simp only [Program.reborrows, Result.bind_eq_ok, Result.pure_eq_ok] at h
  obtain ⟨items, hi, rfl⟩ := h
  have himpls : (p.impls.map Impl.reborrows).map Impl.reborrows = p.impls.map Impl.reborrows := by
    rw [List.map_map]
    exact List.map_congr_left fun d _ => d.reborrows_reborrows
  rw [Program.reborrows, itemReborrows_again hi, himpls]
  rfl

/-- The program after `n` passes, of which the first that fails is the last. -/
def Program.reborrowsTimes : (n : Nat) → Program → Result Program
  | 0, p => return p
  | n + 1, p => do reborrowsTimes n (← p.reborrows)

/-- A second pass succeeds and changes nothing, so any number of passes give what the first gave. -/
theorem Program.reborrowsTimes_succ (p after : Program) (h : p.reborrows = .ok after) :
    after.reborrows = .ok after ∧ ∀ n, p.reborrowsTimes (n + 1) = .ok after := by
  have hfix : after.reborrows = .ok after := Program.reborrows_again h
  have hmore : ∀ n, after.reborrowsTimes n = .ok after := by
    intro n
    induction n with
    | zero => rfl
    | succ n ih =>
      rw [reborrowsTimes, hfix]
      exact ih
  refine ⟨hfix, fun n => ?_⟩
  rw [reborrowsTimes, h]
  exact hmore n

theorem Program.reborrowsTimes_succ_passOn : ∃ after, Program.passOn.reborrows = .ok after ∧
    Program.passOn.nodes.length < after.nodes.length ∧ after.reborrows = .ok after ∧
    ∀ n, Program.passOn.reborrowsTimes (n + 1) = .ok after :=
  ⟨_, rfl, by decide, Program.reborrowsTimes_succ .passOn _ rfl⟩

end BorrowLang.Typed
