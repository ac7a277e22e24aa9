import BorrowLang.Proofs.CheckedFunctions
import BorrowLang.Proofs.ExprSteps
import BorrowLang.Proofs.Merge

/-!
What is expected of the parts of a body by those around them: of the tail of a block and the arms of
a match what is expected of the whole, of a borrowed value what stands behind the reference, and of
all else nothing. A property of an expression and of what is expected of it holds all through a
checked body, as soon as it holds of what the check makes of one expression: only the value of a
`let` is annotated anew afterwards, and only dereferences are added.
-/
namespace BorrowLang

mutual

/-- The expression and every expression inside it, each with what is expected of it when `expected`
is of the whole. Of an arm of a match that is also what the arms before it gave. -/
def Expr.expectations : Expr → (expected : Ty) → List (Expr × Ty)
  | ⟨kind, type, span⟩, expected => (⟨kind, type, span⟩, expected) :: kind.expectations expected

def ExprKind.expectations : ExprKind → (expected : Ty) → List (Expr × Ty)
  | .block ⟨statements, tail, _, _⟩, expected =>
    exprExpectations statements ++ optionExpectations tail expected
  | .letIn _ _ value, _ => value.expectations .wildcard
  | .assign place value, _ => place.expectations .wildcard ++ value.expectations .wildcard
  | .ret value, _ => optionExpectations value .wildcard
  | .cond condition thenBranch elseBranch, _ =>
    condition.expectations .wildcard ++ thenBranch.expectations .wildcard ++
      optionExpectations elseBranch .wildcard
  | .matchOn value arms, expected => value.expectations .wildcard ++ armExpectations arms expected
  | .callPath _ args, _ => exprExpectations args
  | .callMethod receiver _ args, _ => receiver.expectations .wildcard ++ exprExpectations args
  | .callValue callee args, _ => callee.expectations .wildcard ++ exprExpectations args
  | .named _, _ => []
  | .field object _, _ => object.expectations .wildcard
  | .index value index, _ => value.expectations .wildcard ++ index.expectations .wildcard
  | .deref value, _ => value.expectations .wildcard
  | .borrow _ value, expected => value.expectations (expected.pointee?.getD .wildcard)
  | .cast value _, _ => value.expectations .wildcard
  | .tuple items, _ => exprExpectations items
  | .literal _, _ => []
  | .binary _ left right, _ => left.expectations .wildcard ++ right.expectations .wildcard

def optionExpectations : Option Expr → (expected : Ty) → List (Expr × Ty)
  | none, _ => []
  | some e, expected => e.expectations expected

def exprExpectations : List Expr → List (Expr × Ty)
  | [] => []
  | e :: es => e.expectations .wildcard ++ exprExpectations es

def armExpectations : List Arm → (expected : Ty) → List (Expr × Ty)
  | [], _ => []
  | ⟨_, guard, code⟩ :: rest, expected =>
    optionExpectations guard .wildcard ++ code.expectations expected ++
      armExpectations rest ((expected.merge? code.type).getD expected)

end

theorem Expr.forall_mem_expectations {P : Expr × Ty → Prop} {e : Expr} {t : Ty} :
    (∀ x ∈ e.expectations t, P x) ↔ P (e, t) ∧ ∀ x ∈ e.kind.expectations t, P x := by
  obtain ⟨kind, type, span⟩ := e
  exact List.forall_mem_cons

/-! ### Every expression is expected somewhere -/

mutual

theorem Expr.map_fst_expectations : ∀ (e : Expr) (t : Ty), (e.expectations t).map (·.1) = e.nodes
  | ⟨kind, type, span⟩, t => by
    rw [Expr.expectations, Expr.nodes, List.map_cons, kind.map_fst_expectations]
termination_by structural e => e

theorem ExprKind.map_fst_expectations : ∀ (kind : ExprKind) (t : Ty),
    (kind.expectations t).map (·.1) = kind.nodes
  | .block ⟨statements, tail, _, _⟩, t => by
    rw [ExprKind.expectations, ExprKind.nodes, List.map_append, map_fst_exprExpectations,
      map_fst_optionExpectations]
  | .assign left right, _ | .index left right, _ | .binary _ left right, _ => by
    rw [ExprKind.expectations, ExprKind.nodes, List.map_append, left.map_fst_expectations,
      right.map_fst_expectations]
  | .ret value, _ => map_fst_optionExpectations value .wildcard
  | .cond condition thenBranch elseBranch, _ => by
    rw [ExprKind.expectations, ExprKind.nodes, List.map_append, List.map_append,
      condition.map_fst_expectations, thenBranch.map_fst_expectations, map_fst_optionExpectations]
  | .matchOn value arms, t => by
    rw [ExprKind.expectations, ExprKind.nodes, List.map_append, value.map_fst_expectations,
      map_fst_armExpectations]
  | .callMethod e _ args, _ | .callValue e args, _ => by
    rw [ExprKind.expectations, ExprKind.nodes, List.map_append, e.map_fst_expectations,
      map_fst_exprExpectations]
  | .letIn _ _ value, _ | .field value _, _ | .deref value, _ | .cast value _, _ =>
    value.map_fst_expectations .wildcard
  | .borrow _ value, t => value.map_fst_expectations _
  | .callPath _ items, _ | .tuple items, _ => map_fst_exprExpectations items
  | .named _, _ | .literal _, _ => rfl
termination_by structural kind => kind

theorem map_fst_optionExpectations : ∀ (e : Option Expr) (t : Ty),
    (optionExpectations e t).map (·.1) = optionNodes e
  | none, _ => rfl
  | some e, t => e.map_fst_expectations t
termination_by structural e => e

theorem map_fst_exprExpectations : ∀ es : List Expr, (exprExpectations es).map (·.1) = exprNodes es
  | [] => rfl
  | e :: es => by
    rw [exprExpectations, exprNodes, List.map_append, e.map_fst_expectations,
      map_fst_exprExpectations]
termination_by structural es => es

theorem map_fst_armExpectations : ∀ (arms : List Arm) (t : Ty),
    (armExpectations arms t).map (·.1) = armNodes arms
  | [], _ => rfl
  | ⟨_, guard, code⟩ :: rest, t => by
    rw [armExpectations, armNodes, List.map_append, List.map_append, map_fst_optionExpectations,
      code.map_fst_expectations, map_fst_armExpectations]
termination_by structural arms => arms

end

/-! ### Checked expressions -/

/-- What is expected of an expression is known of it; if nothing in the source is annotated, no more
than that. -/
def Ty.Tracks (bare : Prop) (t u : Ty) : Prop := t ≤ u ∧ (bare → u = t)

/-- If the source counts as bare, nothing in it is annotated. -/
def UnannotatedIf (bare : Prop) (es : List Expr) : Prop := bare → ∀ e ∈ es, e.type = .wildcard

section
variable {bare : Prop} {t u v : Ty} {e : Expr} {span : Span}

theorem unannotatedIf_append {es fs : List Expr} :
    UnannotatedIf bare (es ++ fs) ↔ UnannotatedIf bare es ∧ UnannotatedIf bare fs := by
  simp only [UnannotatedIf, List.forall_mem_append, imp_and]

theorem unannotatedIf_nodes : UnannotatedIf bare e.nodes ↔
    Ty.wildcard.Tracks bare e.type ∧ UnannotatedIf bare e.kind.nodes := by
  simp only [UnannotatedIf, Expr.forall_mem_nodes, imp_and, Ty.Tracks, Ty.wildcard_le, true_and]

namespace Ty

theorem Tracks.refl (t : Ty) : t.Tracks bare t := ⟨le_refl t, fun _ => rfl⟩

/-- An annotation adds to what is expected. -/
theorem Tracks.annotate {written : Ty} (h : t.Tracks bare u)
    (ha : Ty.wildcard.Tracks bare written) (hm : written.mergeAt u span = .ok v) :
    t.Tracks bare v := by
  refine ⟨h.1.trans (le_of_mergeAt hm).2, fun hb => ?_⟩
  rw [ha.2 hb, mergeAt_eq_ok_iff, wildcard_merge?, Option.some.injEq] at hm
  exact hm ▸ h.2 hb

theorem Tracks.merge {found : Ty} (h : t.Tracks bare u) (hm : u.mergeAt found span = .ok v) :
    ((t.merge? found).getD t).Tracks bare v := by
  obtain ⟨w, hw, hle⟩ := merge?_of_le (h.1.trans (le_of_mergeAt hm).1) (le_of_mergeAt hm).2
  rw [hw, Option.getD_some]
  refine ⟨hle, fun hb => ?_⟩
  rw [mergeAt_eq_ok_iff, h.2 hb, hw] at hm
  exact (Option.some.inj hm).symm

theorem Tracks.pointee (h : t.Tracks bare u) :
    (t.pointee?.getD .wildcard).Tracks bare (u.pointee?.getD .wildcard) := by
  refine ⟨?_, fun hb => by rw [h.2 hb]⟩
  cases h.1 with
  | borrow hinner => exact hinner
  | _ => exact wildcard_le _

end Ty

theorem Expr.forall_mem_expectations_derefTimes {P : Expr × Ty → Prop}
    (hd : ∀ e : Expr, P (⟨.deref e, e.type.peel, e.span⟩, .wildcard)) (n : Nat)
    (h : ∀ x ∈ e.expectations .wildcard, P x) :
    ∀ x ∈ (e.derefTimes n).expectations .wildcard, P x := by
  induction n generalizing e with
  | zero => exact h
  | succ n ih =>
    apply ih
    rw [Expr.expectations, List.forall_mem_cons]
    exact ⟨hd e, h⟩

theorem Expr.le_letType {value : Expr} {declared : Ty} (h : value.letType declared span = .ok t) :
    declared ≤ t ∧ value.type ≤ t := by
  unfold letType at h
  split at h
  · contradiction
  · exact Ty.le_of_mergeAt h

end

/-- Every expression that a check makes has the property, with what is expected of it. -/
structure Env.MakesExpected (env : Env) (bare : Prop) (N : Expr → Ty → Prop) : Prop where
  made : ∀ (span : Span) (kind : ExprKind) (t expected : Ty) (frames after : Frames)
    (found : ExprKind) (type : Ty), t.Tracks bare expected →
    (Check.exprKind env span kind expected).run frames = (.ok (found, type), after) →
      N ⟨found, type, span⟩ t
  retyped : ∀ (e : Expr) (t : Ty), N e .wildcard → e.type ≤ t → N { e with type := t } .wildcard
  dereferenced : ∀ e : Expr, N ⟨.deref e, e.type.peel, e.span⟩ .wildcard

namespace Check
variable {env : Env} {bare : Prop} {N : Expr → Ty → Prop}

-- By induction on the source. What is expected of a part is reckoned on the checked expressions,
-- where the annotations of the source are gone, so it only tracks what the part was checked with.
mutual

theorem expr_expectations (hN : env.MakesExpected bare N) : ∀ (e : Expr) {t expected : Ty}
    {frames after : Frames} {checked : Expr},
    t.Tracks bare expected ∧ UnannotatedIf bare e.kind.nodes →
    (expr env e expected).run frames = (.ok checked, after) →
      ∀ x ∈ checked.expectations t, N x.1 x.2
  | ⟨kind, _, span⟩, t, expected, frames, after, checked, hb, h => by
    simp only [expr, bind_eq_ok, pure_eq_ok] at h
    obtain ⟨⟨found, type⟩, _, hk, rfl, rfl⟩ := h
    rw [Expr.expectations, List.forall_mem_cons]
    exact ⟨hN.made span kind _ _ _ _ _ _ hb.1 hk, exprKind_expectations hN span kind hb hk⟩
termination_by structural e => e

theorem exprKind_expectations (hN : env.MakesExpected bare N) (span : Span) : ∀ (kind : ExprKind)
    {t expected : Ty} {frames after : Frames} {found : ExprKind} {type : Ty},
    t.Tracks bare expected ∧ UnannotatedIf bare kind.nodes →
    (exprKind env span kind expected).run frames = (.ok (found, type), after) →
      ∀ x ∈ found.expectations t, N x.1 x.2
  | .block ⟨statements, none, traits, aliases⟩, t, expected, frames, after, found, type, ⟨_, hb⟩,
    h => by
    cases exprStep_of_run h with
    | blockUnit _ hs =>
      simp only [ExprKind.nodes, optionNodes, List.append_nil] at hb
      simpa only [ExprKind.expectations, optionExpectations, List.append_nil] using
        exprs_expectations hN _ hb hs
  | .block ⟨statements, some tail, traits, aliases⟩, t, expected, frames, after, found, type,
    ⟨ht, hb⟩, h => by
    cases exprStep_of_run h with
    | blockTail _ hs hi htail _ =>
      simp only [ExprKind.nodes, optionNodes, unannotatedIf_append, unannotatedIf_nodes] at hb
      obtain ⟨hstatements, hwritten, hinside⟩ := hb
      rw [ExprKind.expectations, optionExpectations, List.forall_mem_append]
      exact ⟨exprs_expectations hN _ hstatements hs,
        expr_expectations hN _ ⟨ht.annotate hwritten hi, hinside⟩ htail⟩
  | .letIn pattern declared value, t, expected, frames, after, found, type, ⟨_, hb⟩, h => by
    cases exprStep_of_run h with
    | letIn _ _ hv hu _ _ =>
      have hvalue := expr_expectations hN _ (unannotatedIf_nodes.mp hb) hv
      obtain ⟨hroot, hinside⟩ := Expr.forall_mem_expectations.mp hvalue
      rw [ExprKind.expectations, Expr.expectations, List.forall_mem_cons]
      exact ⟨hN.retyped _ _ hroot (Expr.le_letType hu).2, hinside⟩
  | .assign place value, t, expected, frames, after, found, type, ⟨_, hb⟩, h => by
    cases exprStep_of_run h with
    | assign hp hv _ =>
      simp only [ExprKind.nodes, unannotatedIf_append, unannotatedIf_nodes] at hb
      rw [ExprKind.expectations, List.forall_mem_append]
      exact ⟨expr_expectations hN _ hb.1 hp, expr_expectations hN _ hb.2 hv⟩
  | .ret value, t, expected, frames, after, found, type, ⟨_, hb⟩, h => by
    cases exprStep_of_run h with
    | ret hv => exact optional_expectations hN _ hb hv
  | .cond condition thenBranch none, t, expected, frames, after, found, type, ⟨_, hb⟩, h => by
    cases exprStep_of_run h with
    | condUnit hc hthen _ =>
      simp only [ExprKind.nodes, optionNodes, List.append_nil, unannotatedIf_append,
        unannotatedIf_nodes] at hb
      simp only [ExprKind.expectations, optionExpectations, List.append_nil, List.forall_mem_append]
      exact ⟨expr_expectations hN _ hb.1 hc, expr_expectations hN _ hb.2 hthen⟩
  | .cond condition thenBranch (some elseBranch), t, expected, frames, after, found, type, ⟨_, hb⟩,
    h => by
    cases exprStep_of_run h with
    | condElse hc hthen he _ _ =>
      simp only [ExprKind.nodes, optionNodes, unannotatedIf_append, unannotatedIf_nodes] at hb
      simp only [ExprKind.expectations, optionExpectations, List.forall_mem_append]
      exact ⟨⟨expr_expectations hN _ hb.1.1 hc, expr_expectations hN _ hb.1.2 hthen⟩,
        expr_expectations hN _ hb.2 he⟩
  | .matchOn value arms, t, expected, frames, after, found, type, ⟨ht, hb⟩, h => by
    cases exprStep_of_run h with
    | matchOn hv ha =>
      simp only [ExprKind.nodes, unannotatedIf_append, unannotatedIf_nodes] at hb
      rw [ExprKind.expectations, List.forall_mem_append]
      exact ⟨expr_expectations hN _ hb.1 hv, matchArms_expectations hN span _ _ ⟨ht, hb.2⟩ ha⟩
  | .callPath path args, t, expected, frames, after, found, type, ⟨_, hb⟩, h => by
    cases exprStep_of_run h with
    | callPath ha _ _ => exact exprs_expectations hN _ hb ha
  | .callMethod receiver method args, t, expected, frames, after, found, type, ⟨_, hb⟩, h => by
    cases exprStep_of_run h with
    | callMethod hr ha _ _ =>
      simp only [ExprKind.nodes, unannotatedIf_append, unannotatedIf_nodes] at hb
      rw [ExprKind.expectations, List.forall_mem_append]
      have hreceiver := expr_expectations hN _ hb.1 hr
      exact ⟨Expr.forall_mem_expectations_derefTimes hN.dereferenced _ hreceiver,
        exprs_expectations hN _ hb.2 ha⟩
  | .callValue callee args, t, expected, frames, after, found, type, ⟨_, hb⟩, h => by
    cases exprStep_of_run h with
    | callValue hc ha =>
      simp only [ExprKind.nodes, unannotatedIf_append, unannotatedIf_nodes] at hb
      rw [ExprKind.expectations, List.forall_mem_append]
      exact ⟨expr_expectations hN _ hb.1 hc, exprs_expectations hN _ hb.2 ha⟩
  | .named path, t, expected, frames, after, found, type, _, h => by
    cases exprStep_of_run h with
    | localName _ _ => exact List.forall_mem_nil _
    | itemName _ _ _ => exact List.forall_mem_nil _
  | .field object name, t, expected, frames, after, found, type, ⟨_, hb⟩, h => by
    cases exprStep_of_run h with
    | fieldLater ho _ => exact expr_expectations hN _ (unannotatedIf_nodes.mp hb) ho
    | field ho _ _ _ =>
      have hobject := expr_expectations hN _ (unannotatedIf_nodes.mp hb) ho
      exact Expr.forall_mem_expectations_derefTimes hN.dereferenced _ hobject
  | .index value index, t, expected, frames, after, found, type, ⟨_, hb⟩, h => by
    cases exprStep_of_run h with
    | index hv hi _ =>
      simp only [ExprKind.nodes, unannotatedIf_append, unannotatedIf_nodes] at hb
      rw [ExprKind.expectations, List.forall_mem_append]
      exact ⟨expr_expectations hN _ hb.1 hv, expr_expectations hN _ hb.2 hi⟩
  | .deref value, t, expected, frames, after, found, type, ⟨_, hb⟩, h => by
    cases exprStep_of_run h with
    | deref hv _ _ => exact expr_expectations hN _ (unannotatedIf_nodes.mp hb) hv
  | .borrow kind value, t, expected, frames, after, found, type, ⟨ht, hb⟩, h => by
    cases exprStep_of_run h with
    | borrow hi hv _ =>
      obtain ⟨hwritten, hinside⟩ := unannotatedIf_nodes.mp hb
      exact expr_expectations hN _ ⟨ht.pointee.annotate hwritten hi, hinside⟩ hv
  | .cast value target, t, expected, frames, after, found, type, ⟨_, hb⟩, h => by
    cases exprStep_of_run h with
    | cast _ hv _ => exact expr_expectations hN _ (unannotatedIf_nodes.mp hb) hv
  | .tuple items, t, expected, frames, after, found, type, ⟨_, hb⟩, h => by
    cases exprStep_of_run h with
    | tuple hi _ => exact exprs_expectations hN _ hb hi
  | .literal value, t, expected, frames, after, found, type, _, h => by
    cases exprStep_of_run h with
    | literal _ => exact List.forall_mem_nil _
  | .binary op left right, t, expected, frames, after, found, type, ⟨_, hb⟩, h => by
    cases exprStep_of_run h with
    | binary hl hr _ _ =>
      simp only [ExprKind.nodes, unannotatedIf_append, unannotatedIf_nodes] at hb
      rw [ExprKind.expectations, List.forall_mem_append]
      exact ⟨expr_expectations hN _ hb.1 hl, expr_expectations hN _ hb.2 hr⟩
termination_by structural kind => kind

theorem exprs_expectations (hN : env.MakesExpected bare N) : ∀ (es : List Expr)
    {frames after : Frames} {checked : List Expr},
    UnannotatedIf bare (exprNodes es) → (exprs env es).run frames = (.ok checked, after) →
      ∀ x ∈ exprExpectations checked, N x.1 x.2
  | [], frames, after, checked, _, h => by
    simp only [exprs, pure_eq_ok] at h
    obtain ⟨rfl, -⟩ := h
    exact List.forall_mem_nil _
  | e :: es, frames, after, checked, hb, h => by
    simp only [exprs, bind_eq_ok, pure_eq_ok] at h
    obtain ⟨e, _, he, es, _, hes, rfl, -⟩ := h
    simp only [exprNodes, unannotatedIf_append, unannotatedIf_nodes] at hb
    rw [exprExpectations, List.forall_mem_append]
    exact ⟨expr_expectations hN _ hb.1 he, exprs_expectations hN _ hb.2 hes⟩
termination_by structural es => es

theorem optional_expectations (hN : env.MakesExpected bare N) : ∀ (e : Option Expr)
    {frames after : Frames} {checked : Option Expr},
    UnannotatedIf bare (optionNodes e) → (optional env e).run frames = (.ok checked, after) →
      ∀ x ∈ optionExpectations checked .wildcard, N x.1 x.2
  | none, frames, after, checked, _, h => by
    simp only [optional, pure_eq_ok] at h
    obtain ⟨rfl, -⟩ := h
    exact List.forall_mem_nil _
  | some e, frames, after, checked, hb, h => by
    simp only [optional, bind_eq_ok, pure_eq_ok] at h
    obtain ⟨e, _, he, rfl, -⟩ := h
    exact expr_expectations hN _ (unannotatedIf_nodes.mp hb) he
termination_by structural e => e

theorem matchArms_expectations (hN : env.MakesExpected bare N) (span : Span) (scrutinee : Ty) :
    ∀ (arms : List Arm) {t expected : Ty} {frames after : Frames} {checked : List Arm} {type : Ty},
    t.Tracks bare expected ∧ UnannotatedIf bare (armNodes arms) →
    (matchArms env span scrutinee arms expected).run frames = (.ok (checked, type), after) →
      ∀ x ∈ armExpectations checked t, N x.1 x.2
  | [], t, expected, frames, after, checked, type, _, h => by
    simp only [matchArms, pure_eq_ok, Prod.mk.injEq] at h
    obtain ⟨⟨rfl, -⟩, -⟩ := h
    exact List.forall_mem_nil _
  | ⟨patterns, guard, code⟩ :: rest, t, expected, frames, after, checked, type, ⟨ht, hb⟩, h => by
    obtain ⟨_, arms, u, _, rfl, ⟨_, hg, hi, hc, hu⟩, hr⟩ := armStep_of_run h
    simp only [armNodes, unannotatedIf_append, unannotatedIf_nodes] at hb
    obtain ⟨⟨hguard, hwritten, hinside⟩, hrest⟩ := hb
    simp only [armExpectations, List.forall_mem_append]
    exact ⟨⟨optional_expectations hN _ hguard hg,
      expr_expectations hN _ ⟨ht.annotate hwritten hi, hinside⟩ hc⟩,
      matchArms_expectations hN span scrutinee rest ⟨ht.merge hu, hrest⟩ hr⟩
termination_by structural arms => arms

end

end Check

end BorrowLang
