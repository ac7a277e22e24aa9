import BorrowLang.Proofs.PatternLocals
import BorrowLang.Proofs.Renaming
import BorrowLang.Proofs.TwinChecks

/-!
The check of a body and that of the body with other names for its locals take the same steps.
-/
namespace BorrowLang
namespace Check

section
variable {f : Nat → String → String} {α β : Type} {k : Nat} {events : List ScopeEvent}

theorem Alike.of_blind {c : Check α} (hc : c.Blind) : Alike f k [] c c Eq := by
  have h : Alike f k [] (c >>= Pure.pure) (c >>= Pure.pure) Eq := .blind hc fun a _ => .pure rfl
  rwa [bind_pure] at h

/-- What comes last has no events. -/
theorem Alike.last {c d : Check α} {g h : α → Check β} {R : α → α → Prop} {S : β → β → Prop}
    (hc : Alike f k events c d R)
    (hend : ∀ a b, R a b → Alike f (k + events.length) [] (g a) (h b) S) :
    Alike f k events (c >>= g) (d >>= h) S := by
  have hbind := hc.bind hend
  rwa [List.append_nil] at hbind

section Patterns
variable (s : Symbols)

mutual

theorem alike_pattern : ∀ (p : Pattern) (k : Nat) (t : Ty),
    Alike f k p.events (pattern s p t) (pattern s (p.relabel f k) t) Eq
  | .wildcard _, _, _ => .pure rfl
  | .identifier name mutability span, _, t => .declare ⟨name, mutability, t⟩ span
  | .literal _ _, _, _ => .of_blind (blind_ofResult _)
  | .tuple items span, k, t => by
    rw [Pattern.events, Pattern.relabel, pattern, pattern, length_patternRelabel]
    refine .blind (blind_ofResult _) fun types htypes => ?_
    exact alike_patterns items k types (Ty.length_of_tupleParts htypes.of_ofResult)
  | .reference inner span, k, t =>
    .blind (blind_ofResult _) fun t _ => alike_pattern inner k t
  | .variant path items span, k, t => by
    rw [Pattern.events, Pattern.relabel, pattern, pattern, length_patternRelabel]
    refine .blind (blind_ofResult _) fun types htypes => ?_
    exact alike_patterns items k types (Symbols.length_of_variantParts htypes.of_ofResult)
  | .fields path fields span, k, t =>
    .blind (blind_ofResult _) fun parts _ => alike_fieldPatterns path span parts fields k

theorem alike_patterns : ∀ (ps : List Pattern) (k : Nat) (ts : List Ty), ts.length = ps.length →
    Alike f k (patternEvents ps) (patterns s ps ts) (patterns s (patternRelabel f k ps) ts) Eq
  | [], _, _, _ => .pure rfl
  | p :: ps, k, t :: ts, hlen =>
    (alike_pattern p k t).bind fun _ _ _ => alike_patterns ps _ ts (Nat.succ.inj hlen)

theorem alike_fieldPatterns (path : Path) (span : Span) (parts : List (String × Ty)) :
    ∀ (fields : List (String × Pattern)) (k : Nat),
      Alike f k (fieldEvents fields) (fieldPatterns s path span parts fields)
        (fieldPatterns s path span parts (fieldRelabel f k fields)) Eq
  | [], _ => .pure rfl
  | (name, p) :: rest, k => by
    rw [fieldEvents, fieldRelabel, fieldPatterns, fieldPatterns]
    cases parts.lookup name with
    | none => exact .blind (blind_throw _) fun a h => absurd h (not_yields_throw _ a)
    | some t =>
      exact (alike_pattern p k t).bind fun _ _ _ => alike_fieldPatterns path span parts rest _

end

theorem alike_eachPattern (ps : List Pattern) (k : Nat) (t : Ty) :
    Alike f k (patternEvents ps) (eachPattern s ps t) (eachPattern s (patternRelabel f k ps) t)
      Eq := by
  induction ps generalizing k with
  | nil => exact .pure rfl
  | cons p ps ih => exact (alike_pattern s p k t).bind fun _ _ _ => ih _

end Patterns

section
variable (env : Env)

-- Of two results the second is the first with the new names, and the first has the events that were
-- there before the check, so that the numbers of what follows stay the same.
mutual

theorem alike_expr : ∀ (e : Expr) (k : Nat) (expected : Ty),
    Alike f k e.events (expr env e expected) (expr env (e.relabel f k) expected)
      fun a b => a.events = e.events ∧ b = a.relabel f k
  | ⟨kind, _, span⟩, k, expected => by
    refine (alike_exprKind span kind k expected).last fun (kind', type) b ⟨ha, hb⟩ => ?_
    subst hb
    exact .pure ⟨ha, rfl⟩

theorem alike_exprKind (span : Span) : ∀ (kind : ExprKind) (k : Nat) (expected : Ty),
    Alike f k kind.events (exprKind env span kind expected)
      (exprKind env span (kind.relabel f k) expected)
      fun a b => a.1.events = kind.events ∧ b = (a.1.relabel f k, a.2)
  | .block ⟨statements, tail, traits, aliases⟩, k, expected => by
    rw [ExprKind.events, ExprKind.relabel, exprKind, exprKind]
    refine .inFrame (.blind (blind_openBlock env span traits aliases) fun _ _ => ?_)
    refine (alike_exprs statements (k + 1)).bind fun as bs ⟨has, hbs⟩ => ?_
    subst hbs
    cases tail with
    | none => exact .pure ⟨by rw [ExprKind.events, has], rfl⟩
    | some tail =>
      simp only [optionRelabel, Expr.type_relabel, Expr.span_relabel]
      refine .blind (blind_merge ..) fun t _ => ?_
      refine (alike_expr tail _ t).last fun a b ⟨ha, hb⟩ => ?_
      subst hb
      simp only [Expr.type_relabel, Expr.span_relabel]
      refine .blind (blind_merge ..) fun u _ => .pure ⟨?_, ?_⟩
      · simp only [ExprKind.events, optionEvents, has, ha]
      · simp only [ExprKind.relabel, optionRelabel, has]
  | .letIn pattern declared value, k, expected => by
    rw [ExprKind.events, ExprKind.relabel, exprKind, exprKind]
    refine .blind (blind_resolveType env span declared) fun declared _ => ?_
    rw [value.type_relabel]
    refine (alike_expr value k value.type).bind fun a b ⟨ha, hb⟩ => ?_
    subst hb
    have hlet : (a.relabel f k).letType declared span = a.letType declared span := by
      rw [Expr.letType, Expr.letType, a.type_relabel, a.span_relabel]
    rw [hlet]
    refine .blind (blind_ofResult _) fun type _ => ?_
    refine (alike_pattern env.symbols pattern _ type).last fun _ _ _ => ?_
    refine .blind (blind_merge ..) fun t _ => .pure ⟨?_, ?_⟩
    · simp only [ExprKind.events, a.events_retype, ha]
    · simp only [ExprKind.relabel, a.events_retype, a.retype_relabel, ha]
  | .assign place value, k, expected => by
    rw [ExprKind.events, ExprKind.relabel, exprKind, exprKind, place.type_relabel,
      value.type_relabel]
    refine (alike_expr place k _).bind fun a b ⟨ha, hb⟩ => ?_
    subst hb
    refine (alike_expr value _ _).last fun a' b' ⟨ha', hb'⟩ => ?_
    subst hb'
    refine .blind (blind_merge ..) fun t _ => .pure ⟨?_, ?_⟩
    · simp only [ExprKind.events, ha, ha']
    · simp only [ExprKind.relabel, ha]
  | .ret value, k, expected => by
    rw [ExprKind.events, ExprKind.relabel, exprKind, exprKind]
    refine (alike_optional value k).last fun a b ⟨ha, hb⟩ => ?_
    subst hb
    exact .pure ⟨ha, rfl⟩
  | .cond condition thenBranch elseBranch, k, expected => by
    rw [ExprKind.events, ExprKind.relabel, exprKind, exprKind, condition.type_relabel,
      thenBranch.type_relabel]
    refine (alike_expr condition k _).bind fun a b ⟨ha, hb⟩ => ?_
    subst hb
    refine (alike_expr thenBranch _ _).bind fun a' b' ⟨ha', hb'⟩ => ?_
    subst hb'
    cases elseBranch with
    | none =>
      refine .blind (blind_merge ..) fun t _ => .pure ⟨?_, ?_⟩
      · simp only [ExprKind.events, optionEvents, ha, ha']
      · simp only [ExprKind.relabel, optionRelabel, ha]
    | some elseBranch =>
      simp only [optionRelabel, Expr.type_relabel]
      refine (alike_expr elseBranch _ _).last fun a'' b'' ⟨ha'', hb''⟩ => ?_
      subst hb''
      simp only [Expr.type_relabel]
      refine .blind (blind_merge ..) fun t _ => .blind (blind_merge ..) fun u _ => .pure ⟨?_, ?_⟩
      · simp only [ExprKind.events, optionEvents, ha, ha', ha'']
      · simp only [ExprKind.relabel, optionRelabel, ha, ha']
  | .matchOn value arms, k, expected => by
    rw [ExprKind.events, ExprKind.relabel, exprKind, exprKind, value.type_relabel]
    refine (alike_expr value k _).bind fun a b ⟨ha, hb⟩ => ?_
    subst hb
    rw [a.type_relabel]
    refine (alike_matchArms span a.type arms _ expected).last fun (as, t) bs ⟨has, hbs⟩ => ?_
    subst hbs
    refine .pure ⟨?_, ?_⟩
    · simp only [ExprKind.events, ha, has]
    · simp only [ExprKind.relabel, ha]
  | .callPath path args, k, expected => by
    rw [ExprKind.events, ExprKind.relabel, exprKind, exprKind]
    refine (alike_exprs args k).last fun as bs ⟨has, hbs⟩ => ?_
    subst hbs
    rw [map_type_exprRelabel]
    refine .blind (blind_ofResult _) fun t _ => ?_
    exact .blind (blind_merge ..) fun u _ => .pure ⟨has, rfl⟩
  | .callMethod receiver method args, k, expected => by
    rw [ExprKind.events, ExprKind.relabel, exprKind, exprKind, receiver.type_relabel]
    refine (alike_expr receiver k _).bind fun a b ⟨ha, hb⟩ => ?_
    subst hb
    refine (alike_exprs args _).last fun as bs ⟨has, hbs⟩ => ?_
    subst hbs
    rw [a.type_relabel, length_exprRelabel]
    refine .blind (blind_method ..) fun c _ => .blind (blind_merge ..) fun t _ => .pure ⟨?_, ?_⟩
    · simp only [ExprKind.events, a.events_derefTimes, ha, has]
    · simp only [ExprKind.relabel, a.events_derefTimes, a.derefTimes_relabel, ha]
  | .callValue callee args, k, expected => by
    rw [ExprKind.events, ExprKind.relabel, exprKind, exprKind, callee.type_relabel]
    refine (alike_expr callee k _).bind fun a b ⟨ha, hb⟩ => ?_
    subst hb
    refine (alike_exprs args _).last fun as bs ⟨has, hbs⟩ => ?_
    subst hbs
    refine .pure ⟨?_, ?_⟩
    · simp only [ExprKind.events, ha, has]
    · simp only [ExprKind.relabel, ha]
  | .named path, k, expected => by
    rw [ExprKind.events, ExprKind.relabel, exprKind, exprKind, path.soleName?_relabel]
    cases hname : path.soleName? with
    | some name =>
      refine (Alike.use name expected span).last fun t u htu => ?_
      subst htu
      exact .pure ⟨by rw [ExprKind.events, hname], rfl⟩
    | none =>
      rw [Path.relabel_of_soleName? hname]
      refine .blind (blind_ofResult _) fun t _ => .blind (blind_merge ..) fun u _ => .pure ⟨?_, ?_⟩
      · rw [ExprKind.events, hname]
      · rw [ExprKind.relabel, Path.relabel_of_soleName? hname]
  | .field object name, k, expected => by
    rw [ExprKind.events, ExprKind.relabel, exprKind, exprKind, object.type_relabel]
    refine (alike_expr object k _).last fun a b ⟨ha, hb⟩ => ?_
    subst hb
    rw [a.type_relabel]
    split
    · exact .pure ⟨ha, rfl⟩
    · refine .blind (blind_ofResult _) fun t _ => .blind (blind_merge ..) fun u _ => .pure ⟨?_, ?_⟩
      · simp only [ExprKind.events, a.events_derefTimes, ha]
      · simp only [ExprKind.relabel, a.derefTimes_relabel]
  | .index value index, k, expected => by
    rw [ExprKind.events, ExprKind.relabel, exprKind, exprKind, value.type_relabel,
      index.type_relabel]
    refine (alike_expr value k _).bind fun a b ⟨ha, hb⟩ => ?_
    subst hb
    refine (alike_expr index _ _).last fun a' b' ⟨ha', hb'⟩ => ?_
    subst hb'
    rw [a.type_relabel]
    refine .blind (blind_merge ..) fun t _ => .pure ⟨?_, ?_⟩
    · simp only [ExprKind.events, ha, ha']
    · simp only [ExprKind.relabel, ha]
  | .deref value, k, expected => by
    rw [ExprKind.events, ExprKind.relabel, exprKind, exprKind, value.type_relabel]
    refine (alike_expr value k _).last fun a b ⟨ha, hb⟩ => ?_
    subst hb
    have hpointee : (a.relabel f k).pointee = a.pointee := by
      rw [Expr.pointee, Expr.pointee, a.type_relabel, a.span_relabel]
    rw [hpointee]
    refine .blind (blind_ofResult _) fun t _ => .blind (blind_merge ..) fun u _ => .pure ⟨ha, rfl⟩
  | .borrow kind value, k, expected => by
    rw [ExprKind.events, ExprKind.relabel, exprKind, exprKind, value.type_relabel]
    refine .blind (blind_merge ..) fun inside _ => ?_
    refine (alike_expr value k inside).last fun a b ⟨ha, hb⟩ => ?_
    subst hb
    rw [a.type_relabel]
    exact .blind (blind_merge ..) fun t _ => .pure ⟨ha, rfl⟩
  | .cast value target, k, expected => by
    rw [ExprKind.events, ExprKind.relabel, exprKind, exprKind, value.type_relabel]
    refine .blind (blind_resolveType env span target) fun target _ => ?_
    refine (alike_expr value k _).last fun a b ⟨ha, hb⟩ => ?_
    subst hb
    exact .blind (blind_merge ..) fun t _ => .pure ⟨ha, rfl⟩
  | .tuple items, k, expected => by
    rw [ExprKind.events, ExprKind.relabel, exprKind, exprKind]
    refine (alike_exprs items k).last fun as bs ⟨has, hbs⟩ => ?_
    subst hbs
    have htuple : Expr.tupleType (exprRelabel f k as) = Expr.tupleType as := by
      rw [Expr.tupleType, Expr.tupleType, map_type_exprRelabel]
      cases as <;> rfl
    rw [htuple]
    exact .blind (blind_merge ..) fun t _ => .pure ⟨has, rfl⟩
  | .literal value, _, _ => .blind (blind_merge ..) fun _ _ => .pure ⟨rfl, rfl⟩
  | .binary op left right, k, expected => by
    rw [ExprKind.events, ExprKind.relabel, exprKind, exprKind, left.type_relabel,
      right.type_relabel]
    refine (alike_expr left k _).bind fun a b ⟨ha, hb⟩ => ?_
    subst hb
    refine (alike_expr right _ _).last fun a' b' ⟨ha', hb'⟩ => ?_
    subst hb'
    rw [a.type_relabel, a'.type_relabel]
    refine .blind (blind_ofResult _) fun t _ => .blind (blind_merge ..) fun u _ => .pure ⟨?_, ?_⟩
    · simp only [ExprKind.events, ha, ha']
    · simp only [ExprKind.relabel, ha]

theorem alike_exprs : ∀ (es : List Expr) (k : Nat),
    Alike f k (exprEvents es) (exprs env es) (exprs env (exprRelabel f k es))
      fun as bs => exprEvents as = exprEvents es ∧ bs = exprRelabel f k as
  | [], _ => .pure ⟨rfl, rfl⟩
  | e :: es, k => by
    rw [exprEvents, exprRelabel, exprs, exprs, e.type_relabel]
    refine (alike_expr e k _).bind fun a b ⟨ha, hb⟩ => ?_
    subst hb
    refine (alike_exprs es _).last fun as bs ⟨has, hbs⟩ => ?_
    subst hbs
    refine .pure ⟨?_, ?_⟩
    · rw [exprEvents, ha, has]
    · rw [exprRelabel, ha]

theorem alike_optional : ∀ (e : Option Expr) (k : Nat),
    Alike f k (optionEvents e) (optional env e) (optional env (optionRelabel f k e))
      fun a b => optionEvents a = optionEvents e ∧ b = optionRelabel f k a
  | none, _ => .pure ⟨rfl, rfl⟩
  | some e, k => by
    rw [optionEvents, optionRelabel, optional, optional, e.type_relabel]
    refine (alike_expr e k _).last fun a b ⟨ha, hb⟩ => ?_
    subst hb
    exact .pure ⟨ha, rfl⟩

theorem alike_matchArms (span : Span) (scrutinee : Ty) : ∀ (arms : List Arm) (k : Nat)
    (expected : Ty), Alike f k (armEvents arms) (matchArms env span scrutinee arms expected)
      (matchArms env span scrutinee (armRelabel f k arms) expected)
      fun a b => armEvents a.1 = armEvents arms ∧ b = (armRelabel f k a.1, a.2)
  | [], _, _ => .pure ⟨rfl, rfl⟩
  | ⟨patterns, guard, code⟩ :: rest, k, expected => by
    rw [armEvents, armRelabel, Arm.relabel, matchArms, matchArms, code.type_relabel]
    refine Alike.bind (R := fun a b : Arm × Ty =>
      a.1.events = Arm.events ⟨patterns, guard, code⟩ ∧ b = (a.1.relabel f k, a.2))
      (.inFrame ?_) fun (a, t) b ⟨ha, hb⟩ => ?_
    · refine (alike_eachPattern env.symbols patterns _ scrutinee).bind fun _ _ _ => ?_
      refine (alike_optional guard _).bind fun a b ⟨ha, hb⟩ => ?_
      subst hb
      refine .blind (blind_merge ..) fun t _ => ?_
      refine (alike_expr code _ t).last fun a' b' ⟨ha', hb'⟩ => ?_
      subst hb'
      rw [a'.type_relabel, a'.span_relabel]
      refine .blind (blind_merge ..) fun u _ => .pure ⟨?_, ?_⟩
      · simp only [Arm.events, ha, ha']
      · simp only [Arm.relabel, ha]
    subst hb
    refine (alike_matchArms span scrutinee rest _ t).last fun (as, u) bs ⟨has, hbs⟩ => ?_
    subst hbs
    refine .pure ⟨?_, ?_⟩
    · simp only [armEvents, ha, has]
    · simp only [armRelabel, ha]

end

theorem alike_functionArgs (span : Span) (args : List FunctionArg) (k : Nat) :
    Alike f k (argEvents args) (functionArgs env span args)
      (functionArgs env span (argRelabel f k args))
      fun as bs => argEvents as = argEvents args ∧ bs = argRelabel f k as := by
  induction args generalizing k with
  | nil => exact .pure ⟨rfl, rfl⟩
  | cons arg args ih =>
    obtain ⟨pattern, type⟩ := arg
    rw [argEvents, argRelabel, functionArgs, functionArgs]
    refine .blind (blind_resolveType env span type) fun t _ => ?_
    refine (alike_pattern env.symbols pattern k t).bind fun _ _ _ => ?_
    refine (ih _).last fun as bs hsame => ?_
    obtain ⟨has, rfl⟩ := hsame
    refine .pure ⟨?_, rfl⟩
    rw [argEvents, has]

end

end

section
variable {f : Nat → String → String}

/-- Functions are checked in a scope of their own, whatever frames are open outside. -/
theorem ends_function (env : Env) (d : Function) (hrespects : ScopeEvent.Respects f d.events)
    (frames : Frames) : Ends f d.events frames.slots.length [] d.events (function env d)
      (function env (d.relabel f)) (fun a b => a.events = d.events ∧ b = a.relabel f)
      frames frames := by
  obtain ⟨name, params, args, ret, code, span⟩ := d
  have hbase : TwinsAfter f (Function.events ⟨name, params, args, ret, code, span⟩)
      frames.slots.length [] frames frames := .base rfl
  refine .inFrame (Alike.ends ?_ hrespects rfl rfl ?_ (twinsAfter_enter hbase))
  · refine .blind (blind_declareParams params span) fun _ _ => ?_
    refine .blind (blind_resolveType env span ret) fun ret' _ => ?_
    refine (alike_functionArgs env span args 1).bind fun as bs hsame => ?_
    obtain ⟨has, rfl⟩ := hsame
    cases code with
    | none =>
      refine .pure ⟨?_, ?_⟩
      · simp only [Function.events, has]
      · simp only [Function.relabel, optionRelabel]
    | some code =>
      refine (alike_expr env code _ ret').last fun a b hcode => ?_
      obtain ⟨ha, rfl⟩ := hcode
      refine .pure ⟨?_, ?_⟩
      · simp only [Function.events, optionEvents, has, ha]
      · simp only [Function.relabel, optionRelabel, has]
  · exact List.cons_ne_nil [] []

end
end Check
end BorrowLang
