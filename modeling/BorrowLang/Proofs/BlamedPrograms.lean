import BorrowLang.Proofs.BlamedChecks
import BorrowLang.Proofs.BoundPrograms

/-!
A violated invariant is reported only for programs whose functions name an item as what it is not, and
none of these programs is accepted.
-/
namespace BorrowLang

/-! ### Accepted bodies -/

/-- The checker has an answer for the path of the expression, if it is one. -/
def ExprKind.Answered (kind : ExprKind) : Prop := ∀ message, ¬ kind.Blamed message

theorem ExprKind.answered_named_local {path : Path} {name : String}
    (h : path.soleName? = some name) : (named path).Answered := by
  intro message hb
  cases hb with
  | value key hn _ => exact absurd (h.symm.trans hn) nofun
  | nothing hrelative hempty _ =>
    obtain ⟨absolute, segments, binding⟩ := path
    cases hempty
    cases absolute <;> cases h

theorem ExprKind.answered_named {s : Symbols} {path : Path} {span : Span} {t : Ty}
    (h : s.valueType path span = .ok t) : (named path).Answered := by
  intro message hb
  unfold Symbols.valueType at h
  cases hb with
  | value key _ hkey =>
    simp only [List.mem_cons, List.not_mem_nil, or_false] at hkey
    rcases hkey with hkey | hkey | hkey <;> simp [hkey] at h
  | nothing _ _ hunbound => simp [hunbound] at h

theorem ExprKind.answered_callPath {s : Symbols} {path : Path} {found : List Ty} {span : Span}
    {t : Ty} (h : s.callType path found span = .ok t) (args : List Expr) :
    (callPath path args).Answered := by
  intro message hb
  unfold Symbols.callType at h
  cases hb with
  | callee key _ hkey =>
    simp only [List.mem_cons, List.not_mem_nil, or_false] at hkey
    rcases hkey with hkey | hkey | hkey | hkey <;> simp [hkey] at h

namespace Check

/-- The check succeeds only if the property holds. -/
structure Needs {α : Type} (P : Prop) (c : Check α) : Prop where
  run : ∀ frames a after, c.run frames = (.ok a, after) → P

section
variable {α β : Type} {P : Prop} {c : Check α} {f : α → Check β}

theorem Needs.of (h : P) : c.Needs P := ⟨fun _ _ _ _ => h⟩

theorem Needs.first (h : c.Needs P) : (c >>= f).Needs P := by
  constructor
  intro frames b after hrun
  obtain ⟨a, mid, hc, -⟩ := bind_eq_ok.mp hrun
  exact h.run frames a mid hc

theorem Needs.later (h : ∀ a, (f a).Needs P) : (c >>= f).Needs P := by
  constructor
  intro frames b after hrun
  obtain ⟨a, mid, -, hf⟩ := bind_eq_ok.mp hrun
  exact (h a).run mid b after hf

theorem Needs.inFrame (h : c.Needs P) : (inFrame c).Needs P := by
  constructor
  intro frames a after hrun
  obtain ⟨mid, hc, -⟩ := inFrame_eq_ok.mp hrun
  exact h.run _ a mid hc

theorem Needs.and {Q : Prop} (h : c.Needs P) (h' : c.Needs Q) : c.Needs (P ∧ Q) :=
  ⟨fun frames a after hrun => ⟨h.run frames a after hrun, h'.run frames a after hrun⟩⟩

theorem Needs.append {R : Expr → Prop} {xs ys : List Expr} (h : c.Needs (∀ x ∈ xs, R x))
    (h' : c.Needs (∀ x ∈ ys, R x)) : c.Needs (∀ x ∈ xs ++ ys, R x) :=
  ⟨fun frames a after hrun => List.forall_mem_append.mpr ((h.and h').run frames a after hrun)⟩

end

variable (env : Env)

mutual

theorem needs_expr : ∀ (e : Expr) (expected : Ty),
    (expr env e expected).Needs (∀ x ∈ e.nodes, x.kind.Answered)
  | ⟨kind, _, span⟩, expected => by
    rw [expr]
    refine .first ⟨fun frames r after hrun => ?_⟩
    exact List.forall_mem_cons.mpr ((needs_exprKind span kind expected).run frames r after hrun)

theorem needs_exprKind (span : Span) : ∀ (kind : ExprKind) (expected : Ty),
    (exprKind env span kind expected).Needs (kind.Answered ∧ ∀ x ∈ kind.nodes, x.kind.Answered)
  | .block ⟨statements, tail, traits, aliases⟩, expected => by
    rw [exprKind]
    refine .and (.of nofun) (.inFrame (.later fun _ => .append (.first (needs_exprs statements)) ?_))
    refine .later fun _ => ?_
    cases tail with
    | none => exact .of (List.forall_mem_nil _)
    | some tail => exact .later fun t => .first (needs_expr tail t)
  | .letIn _ _ value, expected => by
    rw [exprKind]
    exact .and (.of nofun) (.later fun _ => .first (needs_expr value _))
  | .assign place value, expected => by
    rw [exprKind]
    exact .and (.of nofun) (.append (.first (needs_expr place _))
      (.later fun _ => .first (needs_expr value _)))
  | .ret value, expected => by
    rw [exprKind]
    exact .and (.of nofun) (.first (needs_optional value))
  | .cond condition thenBranch elseBranch, expected => by
    rw [exprKind]
    refine .and (.of nofun) (.append (.append (.first (needs_expr condition _))
      (.later fun _ => .first (needs_expr thenBranch _))) (.later fun _ => .later fun _ => ?_))
    cases elseBranch with
    | none => exact .of (List.forall_mem_nil _)
    | some elseBranch => exact .first (needs_expr elseBranch _)
  | .matchOn value arms, expected => by
    rw [exprKind]
    exact .and (.of nofun) (.append (.first (needs_expr value _))
      (.later fun _ => .first (needs_matchArms span _ arms _)))
  | .callPath path args, expected => by
    rw [exprKind]
    refine .and (.later fun es => .first ⟨fun frames t after hrun => ?_⟩) (.first (needs_exprs args))
    exact ExprKind.answered_callPath (ofResult_eq_ok.mp hrun).1 args
  | .callMethod receiver ⟨_, _⟩ args, expected => by
    rw [exprKind]
    exact .and (.of nofun) (.append (.first (needs_expr receiver _))
      (.later fun _ => .first (needs_exprs args)))
  | .callValue callee args, expected => by
    rw [exprKind]
    exact .and (.of nofun) (.append (.first (needs_expr callee _))
      (.later fun _ => .first (needs_exprs args)))
  | .named path, expected => by
    rw [exprKind]
    refine .and ?_ (.of (List.forall_mem_nil _))
    cases hn : path.soleName? with
    | some name => exact .of (ExprKind.answered_named_local hn)
    | none => exact .first ⟨fun frames t after hrun =>
        ExprKind.answered_named (ofResult_eq_ok.mp hrun).1⟩
  | .field object _, expected => by
    rw [exprKind]
    exact .and (.of nofun) (.first (needs_expr object _))
  | .index value index, expected => by
    rw [exprKind]
    exact .and (.of nofun) (.append (.first (needs_expr value _))
      (.later fun _ => .first (needs_expr index _)))
  | .deref value, expected => by
    rw [exprKind]
    exact .and (.of nofun) (.first (needs_expr value _))
  | .borrow _ value, expected => by
    rw [exprKind]
    exact .and (.of nofun) (.later fun t => .first (needs_expr value t))
  | .cast value _, expected => by
    rw [exprKind]
    exact .and (.of nofun) (.later fun _ => .first (needs_expr value _))
  | .tuple items, expected => by
    rw [exprKind]
    exact .and (.of nofun) (.first (needs_exprs items))
  | .literal _, _ => .and (.of nofun) (.of (List.forall_mem_nil _))
  | .binary _ left right, expected => by
    rw [exprKind]
    exact .and (.of nofun) (.append (.first (needs_expr left _))
      (.later fun _ => .first (needs_expr right _)))

theorem needs_exprs : ∀ es : List Expr,
    (exprs env es).Needs (∀ x ∈ exprNodes es, x.kind.Answered)
  | [] => .of (List.forall_mem_nil _)
  | e :: es => .append (.first (needs_expr e _)) (.later fun _ => .first (needs_exprs es))

theorem needs_optional : ∀ e : Option Expr,
    (optional env e).Needs (∀ x ∈ optionNodes e, x.kind.Answered)
  | none => .of (List.forall_mem_nil _)
  | some e => .first (needs_expr e _)

theorem needs_matchArms (span : Span) (scrutinee : Ty) : ∀ (arms : List Arm) (expected : Ty),
    (matchArms env span scrutinee arms expected).Needs (∀ x ∈ armNodes arms, x.kind.Answered)
  | [], _ => .of (List.forall_mem_nil _)
  | ⟨patterns, guard, code⟩ :: rest, expected => by
    rw [matchArms]
    refine .append (.first (.inFrame (.later fun _ => .append (.first (needs_optional guard)) ?_))) ?_
    · exact .later fun _ => .later fun t => .first (needs_expr code t)
    · exact .later fun r => .first (needs_matchArms span scrutinee rest r.2)

end

/-- Only a body with an answer for each of its paths is accepted. -/
theorem needs_function (d : Function) :
    (function env d).Needs (∀ code ∈ d.code, ∀ x ∈ code.nodes, x.kind.Answered) := by
  refine .inFrame (.later fun _ => .later fun ret => .later fun args => ?_)
  cases d.code with
  | none => exact .of nofun
  | some code =>
    refine .first ⟨fun frames checked after hrun => ?_⟩
    rintro _ ⟨⟩
    exact (needs_expr env code ret).run frames checked after hrun

end Check

/-! ### Functions of a module -/

section
variable {implMethods : Bool}

mutual

theorem Module.mem_functions_of_duties : ∀ (m : Module) {parents : List String} {frames : Frames}
    {d : Function}, .function frames d ∈ m.duties implMethods parents →
      d ∈ m.functions implMethods
  | ⟨_, _, held⟩, _, _, _, h => mem_itemFunctions_of_duties held h

theorem Item.mem_functions_of_duties : ∀ (i : Item) {parents : List String} {outer frames : Frames}
    {d : Function}, .function frames d ∈ i.duties implMethods parents outer →
      d ∈ i.functions implMethods
  | .function _, _, _, _, _, h => by
    cases List.mem_singleton.mp h
    exact .head _
  | .impl b, _, _, _, d, h => by
    rw [Item.duties] at h
    rw [Item.functions]
    split_ifs at h ⊢
    · rcases List.mem_cons.mp h with h | h
      · contradiction
      · obtain ⟨body, hbody, hd⟩ := List.mem_map.mp h
        cases hd
        exact hbody
    · nomatch h
  | .module m, _, _, _, _, h => m.mem_functions_of_duties h
  | .struct _, _, _, _, _, h | .enum _, _, _, _, _, h | .traitDef _, _, _, _, _, h
  | .static _, _, _, _, _, h | .typeAlias _, _, _, _, _, h => nomatch h

theorem mem_itemFunctions_of_duties : ∀ (is : List Item) {parents : List String}
    {outer frames : Frames} {d : Function},
    .function frames d ∈ itemDuties implMethods parents outer is → d ∈ itemFunctions implMethods is
  | [], _, _, _, _, h => nomatch h
  | i :: is, _, _, _, _, h => by
    rcases List.mem_append.mp h with h | h
    · exact List.mem_append_left _ (i.mem_functions_of_duties h)
    · exact List.mem_append_right _ (mem_itemFunctions_of_duties is h)

end

end

namespace Program

theorem places_resolved {source : Module} {p : Program} (h : ofModule source = .ok p)
    (hun : ∀ pl ∈ source.places, pl.phrase.Unbound) :
    ∀ pl ∈ p.root.places, pl.phrase.Resolved p.symbols := by
  intro pl hpl
  obtain ⟨a, ha, hbecomes⟩ := exists_place h hun hpl
  exact ⟨places_known h hun pl hpl, hbecomes.phrase.settled (hun a ha)⟩

theorem violation_blamed {source : Module} {p : Program} (h : ofModule source = .ok p)
    (hun : ∀ pl ∈ source.places, pl.phrase.Unbound) {options : CheckOptions} {message : String}
    {span : Span} (he : p.check options = .error (.invariantViolation message span)) :
    ∃ d ∈ p.root.functions options.implMethods, ∃ code ∈ d.code, ∃ x ∈ code.nodes,
      x.span = span ∧ x.kind.Blamed message := by
  rw [check, Check.run_module, Duty.outcome_eq_error] at he
  obtain ⟨before, duty, after, hduties, -, hduty⟩ := he
  cases duty with
  | params frames d =>
    -- Parameters are declared in a frame of their own, and nothing else could be blamed.
    exact (Check.Blames.reason (Q := fun _ _ => False)
      (Check.blames_declareParams d.params d.span) hduty).elim
  | function frames d =>
    have hmem : Duty.function frames d ∈ p.root.duties options.implMethods [] := by
      rw [hduties]
      exact List.mem_append_right before (.head after)
    have hd := p.root.mem_functions_of_duties hmem
    have hphrases := p.root.function_phrases (places_resolved h hun) d hd
    have hrun : d.checkAlone ⟨p.symbols, options⟩ frames =
        .error (.invariantViolation message span) := by
      change discard (d.checkAlone ⟨p.symbols, options⟩ frames) = _ at hduty
      cases hc : d.checkAlone ⟨p.symbols, options⟩ frames with
      | error e =>
        rw [hc] at hduty
        exact congrArg _ (Except.error.inj hduty)
      | ok _ =>
        rw [hc] at hduty
        contradiction
    exact ⟨d, hd, Check.function_violation hphrases hrun⟩

theorem answered_of_accepted {p : Program} {options : CheckOptions} {root : Module}
    (h : p.check options = .ok root) :
    ∀ d ∈ p.root.functions options.implMethods, ∀ code ∈ d.code, ∀ x ∈ code.nodes,
      x.kind.Answered := by
  intro d hd
  obtain ⟨i, hi, rfl⟩ := List.getElem_of_mem hd
  have hfunctions := check_functions h
  obtain ⟨frames, after, -, hrun⟩ := hfunctions.get hi (hfunctions.length_eq ▸ hi)
  exact (Check.needs_function ⟨p.symbols, options⟩ _).run frames _ after hrun

/-- A violated invariant is only reported at an expression of a checked function that names, as a
value, an enum, a trait, an alias or nothing at all, or, as what is called, one of these items or a
static. No program with such an expression is accepted. -/
theorem check_blames {source : Module} {p : Program} (h : ofModule source = .ok p)
    (hun : ∀ pl ∈ source.places, pl.phrase.Unbound) (options : CheckOptions) :
    (∀ message span, p.check options = .error (.invariantViolation message span) →
      ∃ d ∈ p.root.functions options.implMethods, ∃ code ∈ d.code, ∃ x ∈ code.nodes,
        x.span = span ∧ x.kind.Blamed message) ∧
    ∀ root, p.check options = .ok root → ∀ d ∈ p.root.functions options.implMethods,
      ∀ code ∈ d.code, ∀ x ∈ code.nodes, ∀ message, ¬ x.kind.Blamed message :=
  ⟨fun _ _ => violation_blamed h hun, fun _ => answered_of_accepted⟩

end Program

/-- In source form, `mod a { enum E { V } } fn f() { a::E }`. -/
def Module.enumAsValue : Module :=
  let plain : Params := ⟨[], []⟩
  let value : Expr := ⟨.named (.ofNames false ["a", "E"]), .wildcard, default⟩
  ⟨"", [], [
    .module ⟨"a", [], [.enum ⟨"E", plain, [⟨"V", .value none, default⟩], default⟩]⟩,
    .function ⟨"f", plain, [], .unit, some value, default⟩]⟩

theorem Program.check_blames_enumAsValue : ∃ p, ofModule .enumAsValue = .ok p ∧
    (∀ pl ∈ Module.enumAsValue.places, pl.phrase.Unbound) ∧
    ∃ message span, p.check .standard = .error (.invariantViolation message span) ∧
      ∃ d ∈ p.root.functions true, ∃ code ∈ d.code, ∃ x ∈ code.nodes,
        x.span = span ∧ x.kind.Blamed message :=
  have hun : ∀ pl ∈ Module.enumAsValue.places, pl.phrase.Unbound := by decide
  ⟨_, rfl, hun, _, _, rfl, (check_blames rfl hun .standard).1 _ _ rfl⟩

/-- A path of two names may be bound to an enum, and a function that has it for a value is refused as if
the checker were at fault. -/
theorem Program.enumAsValue_violates : ∃ p, ofModule .enumAsValue = .ok p ∧
    (∀ pl ∈ Module.enumAsValue.places, pl.phrase.Unbound) ∧
    p.check .standard = .error (.invariantViolation
      "path `::a::E` bound to enum `::a::E` used as a value" default) :=
  ⟨_, rfl, by decide, rfl⟩

end BorrowLang
