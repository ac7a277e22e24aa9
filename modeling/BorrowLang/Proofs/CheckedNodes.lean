import BorrowLang.Proofs.ExpectedTypes

/-!
A property of single expressions holds of all that a check leaves of a body, as soon as it holds of
what the check makes of one expression. Only the value of a `let` is annotated anew afterwards, and
only dereferences are added.
-/
namespace BorrowLang

/-- Every expression that a check makes has the property. -/
structure Env.Makes (env : Env) (N : Expr → Prop) : Prop where
  made : ∀ (span : Span) (kind : ExprKind) (expected : Ty) (frames after : Frames)
    (found : ExprKind) (type : Ty),
    (Check.exprKind env span kind expected).run frames = (.ok (found, type), after) →
      N ⟨found, type, span⟩
  retyped : ∀ (e : Expr) (t : Ty), N e → e.type ≤ t → N { e with type := t }
  dereferenced : ∀ e : Expr, N ⟨.deref e, e.type.peel, e.span⟩

namespace Check
variable {env : Env} {N : Expr → Prop}

theorem makesExpected_of_makes (hN : env.Makes N) : env.MakesExpected False fun e _ => N e where
  made span kind _ _ _ _ _ _ _ h := hN.made span kind _ _ _ _ _ h
  retyped e t := hN.retyped e t
  dereferenced := hN.dereferenced

theorem expr_nodes (hN : env.Makes N) (e : Expr) {expected : Ty} {frames after : Frames}
    {checked : Expr} (h : (expr env e expected).run frames = (.ok checked, after)) :
    ∀ x ∈ checked.nodes, N x := by
  rw [← checked.map_fst_expectations expected, List.forall_mem_map]
  exact expr_expectations (makesExpected_of_makes hN) e ⟨.refl expected, False.elim⟩ h

theorem function_nodes (hN : env.Makes N) {d checked : Function} (h : d.CheckedTo env checked) :
    ∀ code ∈ checked.code, ∀ e ∈ code.nodes, N e := by
  obtain ⟨frames, after, -, h⟩ := h
  obtain ⟨ret, mid, -, -, -, ⟨-, hnone⟩ | ⟨body, code, last, -, hcode, he⟩⟩ := function_eq_ok env h
  · exact fun code hcode => absurd (hnone ▸ hcode) (Option.not_mem_none code)
  · rw [hcode]
    rintro _ ⟨⟩
    exact expr_nodes hN _ he

end Check

theorem Program.check_nodes {p : Program} {options : CheckOptions} {N : Expr → Prop}
    (hN : Env.Makes ⟨p.symbols, options⟩ N) {root : Module} (h : p.check options = .ok root) :
    ∀ f ∈ root.functions options.implMethods, ∀ code ∈ f.code, ∀ e ∈ code.nodes, N e := by
  intro f hf
  obtain ⟨_, -, hto⟩ := exists_of_forall₂ (check_functions h) hf
  exact Check.function_nodes hN hto

end BorrowLang
