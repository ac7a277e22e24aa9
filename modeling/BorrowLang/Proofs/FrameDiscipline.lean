import BorrowLang.Proofs.Frames

/-!
Every check leaves the frames that were open before it open, and refines and declares locals only.
So the requests to one checker are answered each as by a checker of its own.
-/
namespace BorrowLang
namespace Check

section Patterns
variable (s : Symbols)

mutual

theorem moves_pattern : ∀ (p : Pattern) (t : Ty), (pattern s p t).Moves Frames.Extends
  | .wildcard _, _ => moves_pure _
  | .identifier .., _ => moves_declare ..
  | .literal .., _ => moves_ofResult _
  | .tuple items _, _ => (moves_ofResult _).bind fun ts => moves_patterns items ts
  | .reference inner _, _ => (moves_ofResult _).bind fun t => moves_pattern inner t
  | .variant _ items _, _ => (moves_ofResult _).bind fun ts => moves_patterns items ts
  | .fields path fields span, _ =>
    (moves_ofResult _).bind fun parts => moves_fieldPatterns path span parts fields

theorem moves_patterns : ∀ (ps : List Pattern) (ts : List Ty),
    (patterns s ps ts).Moves Frames.Extends
  | [], _ => moves_pure _
  | _ :: _, [] => moves_pure _
  | p :: ps, t :: ts => (moves_pattern p t).bind fun _ => moves_patterns ps ts

theorem moves_fieldPatterns (path : Path) (span : Span) (parts : List (String × Ty)) :
    ∀ fields, (fieldPatterns s path span parts fields).Moves Frames.Extends
  | [] => moves_pure _
  | (name, p) :: rest => by
    rw [fieldPatterns]
    cases parts.lookup name with
    | none => exact (moves_throw _).bind fun _ => moves_fieldPatterns path span parts rest
    | some t => exact (moves_pattern p t).bind fun _ => moves_fieldPatterns path span parts rest

end

theorem moves_eachPattern (ps : List Pattern) (t : Ty) :
    (eachPattern s ps t).Moves Frames.Extends := by
  induction ps with
  | nil => exact moves_pure _
  | cons p ps ih => exact (moves_pattern s p t).bind fun _ => ih

end Patterns

theorem moves_declareAliases (env : Env) (span : Span) (aliases : List (String × Ty)) :
    (declareAliases env span aliases).Moves Frames.KeepsOuter := by
  induction aliases with
  | nil => exact moves_pure _
  | cons a rest ih =>
    refine (moves_resolveType env span a.2).bind fun t => ?_
    exact (moves_modifyFrame ..).bind fun _ => ih

theorem moves_openBlock (env : Env) (span : Span) (traits : List Path)
    (aliases : List (String × Ty)) :
    (openBlock env span traits aliases).Moves Frames.KeepsOuter :=
  (moves_declareAliases env span aliases).bind fun _ => moves_modifyFrame ..

section
variable (env : Env)

mutual

theorem moves_expr : ∀ (e : Expr) (expected : Ty), (expr env e expected).Moves Frames.Extends
  | ⟨kind, _, span⟩, expected => (moves_exprKind span kind expected).bind fun _ => moves_pure _

theorem moves_exprKind (span : Span) : ∀ (kind : ExprKind) (expected : Ty),
    (exprKind env span kind expected).Moves Frames.Extends
  | .block ⟨statements, tail, traits, aliases⟩, expected => by
    rw [exprKind]
    refine .mono Frames.Keeps.extends
      (.inFrame ((moves_openBlock env span traits aliases).bind fun _ => ?_))
    refine .mono Frames.Extends.keepsOuter ((moves_exprs statements).bind fun _ => ?_)
    cases tail with
    | none => exact moves_pure _
    | some tail =>
      refine (moves_merge ..).bind fun t => (moves_expr tail t).bind fun _ => ?_
      exact (moves_merge ..).bind fun _ => moves_pure _
  | .letIn pattern declared value, expected => by
    rw [exprKind]
    refine (moves_resolveType env span declared).bind fun t => (moves_expr value _).bind fun _ => ?_
    refine (moves_ofResult _).bind fun _ => (moves_pattern _ pattern _).bind fun _ => ?_
    exact (moves_merge ..).bind fun _ => moves_pure _
  | .assign place value, expected => by
    rw [exprKind]
    refine (moves_expr place _).bind fun _ => (moves_expr value _).bind fun _ => ?_
    exact (moves_merge ..).bind fun _ => moves_pure _
  | .ret value, _ => by
    rw [exprKind]
    exact (moves_optional value).bind fun _ => moves_pure _
  | .cond condition thenBranch elseBranch, expected => by
    rw [exprKind]
    refine (moves_expr condition _).bind fun _ => (moves_expr thenBranch _).bind fun _ => ?_
    cases elseBranch with
    | none => exact (moves_merge ..).bind fun _ => moves_pure _
    | some elseBranch =>
      refine (moves_expr elseBranch _).bind fun _ => (moves_merge ..).bind fun _ => ?_
      exact (moves_merge ..).bind fun _ => moves_pure _
  | .matchOn value arms, expected => by
    rw [exprKind]
    refine (moves_expr value _).bind fun _ => (moves_matchArms span _ arms expected).bind fun _ => ?_
    exact moves_pure _
  | .callPath _ args, _ => by
    rw [exprKind]
    refine (moves_exprs args).bind fun _ => (moves_ofResult _).bind fun _ => ?_
    exact (moves_merge ..).bind fun _ => moves_pure _
  | .callMethod receiver method args, _ => by
    rw [exprKind]
    refine (moves_expr receiver _).bind fun _ => (moves_exprs args).bind fun _ => ?_
    refine (moves_method ..).bind fun _ => (moves_merge ..).bind fun _ => moves_pure _
  | .callValue callee args, _ => by
    rw [exprKind]
    exact (moves_expr callee _).bind fun _ => (moves_exprs args).bind fun _ => moves_pure _
  | .named path, expected => by
    rw [exprKind]
    cases path.soleName? with
    | some name => exact (moves_useLocal name expected span).bind fun _ => moves_pure _
    | none => exact (moves_ofResult _).bind fun _ => (moves_merge ..).bind fun _ => moves_pure _
  | .field object name, expected => by
    rw [exprKind]
    refine (moves_expr object _).bind fun object => ?_
    split
    · exact moves_pure _
    · refine (moves_ofResult _).bind fun _ => (moves_merge ..).bind fun _ => ?_
      exact moves_pure _
  | .index value index, _ => by
    rw [exprKind]
    refine (moves_expr value _).bind fun _ => (moves_expr index _).bind fun _ => ?_
    exact (moves_merge ..).bind fun _ => moves_pure _
  | .deref value, _ => by
    rw [exprKind]
    refine (moves_expr value _).bind fun _ => (moves_ofResult _).bind fun _ => ?_
    exact (moves_merge ..).bind fun _ => moves_pure _
  | .borrow _ value, _ => by
    rw [exprKind]
    refine (moves_merge ..).bind fun t => (moves_expr value t).bind fun _ => ?_
    exact (moves_merge ..).bind fun _ => moves_pure _
  | .cast value target, _ => by
    rw [exprKind]
    refine (moves_resolveType env span target).bind fun _ => (moves_expr value _).bind fun _ => ?_
    exact (moves_merge ..).bind fun _ => moves_pure _
  | .tuple items, _ => by
    rw [exprKind]
    exact (moves_exprs items).bind fun _ => (moves_merge ..).bind fun _ => moves_pure _
  | .literal _, _ => by
    rw [exprKind]
    exact (moves_merge ..).bind fun _ => moves_pure _
  | .binary _ left right, _ => by
    rw [exprKind]
    refine (moves_expr left _).bind fun _ => (moves_expr right _).bind fun _ => ?_
    refine (moves_ofResult _).bind fun _ => (moves_merge ..).bind fun _ => ?_
    exact moves_pure _

theorem moves_exprs : ∀ es : List Expr, (exprs env es).Moves Frames.Extends
  | [] => moves_pure _
  | e :: es => (moves_expr e _).bind fun _ => (moves_exprs es).bind fun _ => moves_pure _

theorem moves_optional : ∀ e : Option Expr, (optional env e).Moves Frames.Extends
  | none => moves_pure _
  | some e => (moves_expr e _).bind fun _ => moves_pure _

theorem moves_matchArms (span : Span) (scrutinee : Ty) : ∀ (arms : List Arm) (expected : Ty),
    (matchArms env span scrutinee arms expected).Moves Frames.Extends
  | [], _ => moves_pure _
  | ⟨patterns, guard, code⟩ :: rest, expected => by
    rw [matchArms]
    refine .bind (.mono Frames.Keeps.extends (.inFrame (.mono Frames.Extends.keepsOuter ?_)))
      fun checked => (moves_matchArms span scrutinee rest _).bind fun _ => moves_pure _
    refine (moves_eachPattern _ patterns scrutinee).bind fun _ => (moves_optional guard).bind fun _ => ?_
    refine (moves_merge ..).bind fun t => (moves_expr code t).bind fun _ => ?_
    exact (moves_merge ..).bind fun _ => moves_pure _

end

theorem moves_requireTypeParams {r : Frames → Frames → Prop} [IsPreorder Frames r]
    (bounds : List Bound) : (requireTypeParams bounds).Moves r := by
  induction bounds with
  | nil => exact moves_pure _
  | cons b rest ih =>
    rw [requireTypeParams]
    cases boundName? b with
    | none => exact ih
    | some found => exact moves_get.bind fun _ => (moves_ofResult _).bind fun _ => ih

theorem moves_declareParams (params : Params) (span : Span) :
    (declareParams params span).Moves Frames.KeepsOuter :=
  (moves_modifyFrame ..).bind fun _ => moves_requireTypeParams _

theorem moves_functionArgs (span : Span) (args : List FunctionArg) :
    (functionArgs env span args).Moves Frames.Extends := by
  induction args with
  | nil => exact moves_pure _
  | cons arg rest ih =>
    refine (moves_resolveType env span arg.type).bind fun t => ?_
    exact (moves_pattern _ arg.pattern t).bind fun _ => ih.bind fun _ => moves_pure _

theorem moves_function (d : Function) : (function env d).Moves Frames.Keeps := by
  refine .inFrame ((moves_declareParams d.params d.span).bind fun _ => ?_)
  refine .mono Frames.Extends.keepsOuter ((moves_resolveType env d.span d.ret).bind fun ret => ?_)
  refine (moves_functionArgs env d.span d.args).bind fun args => ?_
  cases d.code with
  | none => exact moves_pure _
  | some code => exact (moves_expr env code ret).bind fun _ => moves_pure _

theorem moves_implItems (items : List ImplItem) : (implItems env items).Moves Frames.Keeps := by
  induction items with
  | nil => exact moves_pure _
  | cons item rest ih =>
    obtain ⟨name, member⟩ := item
    cases member with
    | function body => exact (moves_function env body).bind fun _ => ih.bind fun _ => moves_pure _
    | const type value => exact ih.bind fun _ => moves_pure _
    | type target => exact ih.bind fun _ => moves_pure _

theorem moves_implBlock (d : ImplBlock) : (implBlock env d).Moves Frames.Keeps := by
  refine .inFrame ((moves_declareParams d.params d.span).bind fun _ => ?_)
  refine .mono (fun h => h.extends.keepsOuter) ((moves_implItems env d.items).bind fun _ => ?_)
  exact moves_pure _

theorem moves_module (parents : List String) (m : Module) :
    (module env parents m).Moves Frames.Keeps := by
  obtain ⟨name, uses, items⟩ := m
  rw [Check.module]
  exact moves_isolated _ _

theorem moves_item (parents : List String) (i : Item) :
    (item env parents i).Moves Frames.Keeps := by
  cases i with
  | function d => exact (moves_function env d).bind fun _ => moves_pure _
  | impl d =>
    rw [item]
    split
    · exact (moves_implBlock env d).bind fun _ => moves_pure _
    · exact moves_pure _
  | module m => exact (moves_module env _ m).bind fun _ => moves_pure _
  | _ => exact moves_pure _

end
end Check

/-- What a checker can be asked to do. -/
inductive Request
  | visit (e : Expr)
  | function (d : Function)
  | module (parents : List String) (m : Module)

inductive Answer
  | expr (e : Expr)
  | function (d : Function)
  | module (m : Module)

namespace Request

/-- An expression is checked with its own annotation for what is known of it. -/
def check (env : Env) : Request → Check Answer
  | visit e => return .expr (← Check.expr env e e.type)
  | function d => return .function (← Check.function env d)
  | module parents m => return .module (← Check.module env parents m)

/-- Requests to one checker that has these frames, each answer with the number of frames after it. -/
def session (env : Env) : List Request → Frames → List (Result Answer × Nat)
  | [], _ => []
  | q :: qs, frames =>
    let (answer, after) := (q.check env).run frames
    (answer, after.length) :: session env qs after

theorem moves_check (env : Env) : ∀ q : Request, (q.check env).Moves Frames.Extends
  | visit e => (Check.moves_expr env e e.type).bind fun _ => Check.moves_pure _
  | function d =>
    (Check.Moves.mono Frames.Keeps.extends (Check.moves_function env d)).bind fun _ => Check.moves_pure _
  | module parents m =>
    (Check.Moves.mono Frames.Keeps.extends (Check.moves_module env parents m)).bind fun _ =>
      Check.moves_pure _

/-- No frames are extended by no frames only, so each request finds what the first one found. -/
theorem session_nil (env : Env) (qs : List Request) :
    session env qs [] = qs.map fun q => (((q.check env).run []).1, 0) := by
  induction qs with
  | nil => rfl
  | cons q qs ih =>
    simp only [session, List.map_cons]
    cases hq : (q.check env).run [] with
    | mk answer after =>
      cases (moves_check env q).of_eq hq with
      | nil => simp [ih]

/-- However a request ends, the frames are those from before it, with the types of their locals
refined and new locals in the innermost one; and a checker without frames answers any number of
requests as if each were its first. -/
theorem frames_extend_and_session_fresh (env : Env) :
    (∀ (q : Request) (frames : Frames), frames.Extends ((q.check env).run frames).2) ∧
    ∀ qs : List Request, session env qs [] = qs.map fun q => (((q.check env).run []).1, 0) :=
  ⟨fun q frames => (moves_check env q).run frames, session_nil env⟩

end Request
end BorrowLang
