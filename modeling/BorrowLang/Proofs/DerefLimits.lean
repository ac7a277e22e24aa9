import BorrowLang.Proofs.CheckedBodies

/-!
The limit on the references that are removed from the receiver of a method. A check that does not
run out of it ends in the same way under every higher limit; the others fail because no method was
found.
-/
namespace BorrowLang

/-- The search for a method of a type gave up although the type has more references than the limit
allows to remove. -/
def Error.RunsOut (limit : Nat) (e : Error) : Prop :=
  ∃ (name : String) (t : Ty) (span : Span),
    e = .unresolvedMember s!"no method named `{name}` found for `{t}`" span ∧ limit < t.layers

def Env.withLimit (env : Env) (limit : Nat) : Env :=
  { env with options := { env.options with derefLimit := limit } }

theorem Env.implMethods_withLimit (env : Env) (limit : Nat) :
    (env.withLimit limit).options.implMethods = env.options.implMethods := rfl

namespace Symbols
variable {s : Symbols} {traits : List Path} {name : String} {missing unknown : Error}

/-- More types to search matter only if the method is missing from the first ones. -/
theorem searchMethod_append (ts more : List Ty) (derefs : Nat) :
    s.searchMethod traits name missing unknown derefs ts =
        s.searchMethod traits name missing unknown derefs (ts ++ more) ∨
      s.searchMethod traits name missing unknown derefs ts = .error missing := by
  induction ts generalizing derefs with
  | nil => exact .inr rfl
  | cons t ts ih =>
    rw [List.cons_append, searchMethod, searchMethod]
    split
    · exact .inl rfl
    · split
      · exact .inl rfl
      · exact ih (derefs + 1)

end Symbols

section
variable (env : Env) {limit limit' : Nat} (hle : limit ≤ limit')
include hle

theorem Env.method_withLimit (frames : Frames) (t : Ty) (name : String) (span : Span) :
    (env.withLimit limit).method frames t name span =
        (env.withLimit limit').method frames t name span ∨
      ∃ e, (env.withLimit limit).method frames t name span = .error e ∧ e.RunsOut limit := by
  simp only [method, withLimit]
  by_cases hlayers : t.layers ≤ limit
  · -- Either limit leaves the whole chain to be searched.
    left
    have hlength := t.length_derefChain
    rw [List.take_of_length_le (by omega), List.take_of_length_le (by omega)]
  · obtain ⟨more, rfl⟩ := Nat.exists_eq_add_of_le hle
    have htake : t.derefChain.take (limit + more + 1) =
        t.derefChain.take (limit + 1) ++ (t.derefChain.drop (limit + 1)).take more := by
      rw [Nat.add_right_comm, List.take_add]
    rw [htake]
    refine (Symbols.searchMethod_append _ _ 0).imp_right fun h => ⟨_, h, ?_⟩
    exact ⟨name, t, span, rfl, Nat.lt_of_not_le hlayers⟩

end

namespace Check
variable {α β : Type} {limit : Nat}

/-- From any frames the second check ends as the first does, unless the first runs out of the
limit. -/
def Persists (limit : Nat) (c d : Check α) : Prop :=
  ∀ frames, c.run frames = d.run frames ∨
    ∃ e after, c.run frames = (.error e, after) ∧ e.RunsOut limit

theorem persists_refl (c : Check α) : c.Persists limit c := fun _ => .inl rfl

theorem Persists.bind {c d : Check α} {f g : α → Check β} (h : c.Persists limit d)
    (hf : ∀ a, (f a).Persists limit (g a)) : (c >>= f).Persists limit (d >>= g) := by
  intro frames
  rw [run_bind, run_bind]
  rcases h frames with hsame | ⟨e, after, hc, hout⟩
  · rw [← hsame]
    rcases c.run frames with ⟨e | a, after⟩
    · exact .inl rfl
    · exact hf a after
  · rw [hc]
    exact .inr ⟨e, after, rfl, hout⟩

theorem Persists.inFrame {c d : Check α} (h : c.Persists limit d) :
    (inFrame c).Persists limit (inFrame d) := by
  intro frames
  rw [run_inFrame, run_inFrame]
  rcases h (.empty :: frames) with hsame | ⟨e, after, hc, hout⟩
  · exact .inl (by rw [hsame])
  · rw [hc]
    exact .inr ⟨e, after.tail, rfl, hout⟩

theorem Persists.isolated {c d : Check α} (h : c.Persists limit d) (f : Frame) :
    (isolated f c).Persists limit (isolated f d) := by
  intro frames
  rw [run_isolated, run_isolated]
  rcases h [f] with hsame | ⟨e, after, hc, hout⟩
  · exact .inl (by rw [hsame])
  · rw [hc]
    exact .inr ⟨e, frames, rfl, hout⟩

/-! ### What does not ask for the limit -/

variable (env : Env)

theorem resolveType_withLimit (limit : Nat) (span : Span) (t : Ty) :
    resolveType (env.withLimit limit) span t = resolveType env span t := by
  have haliases : (env.withLimit limit).symbols.aliases = env.symbols.aliases := rfl
  exact funext fun frames => congrArg (·, frames) (resolveType_congr haliases (fun _ => rfl) t)

theorem openBlock_withLimit (limit : Nat) (span : Span) (traits : List Path)
    (aliases : List (String × Ty)) :
    openBlock (env.withLimit limit) span traits aliases = openBlock env span traits aliases := by
  have haliases : declareAliases (env.withLimit limit) span aliases =
      declareAliases env span aliases := by
    induction aliases with
    | nil => rfl
    | cons a rest ih => rw [declareAliases, declareAliases, resolveType_withLimit, ih]
  rw [openBlock, openBlock, haliases]

theorem functionArgs_withLimit (limit : Nat) (span : Span) (args : List FunctionArg) :
    functionArgs (env.withLimit limit) span args = functionArgs env span args := by
  induction args with
  | nil => rfl
  | cons arg rest ih => rw [functionArgs, functionArgs, resolveType_withLimit, ih]; rfl

/-! ### What does -/

variable {limit' : Nat}

theorem persists_method (hle : limit ≤ limit') (t : Ty) (method : Segment) (given : Nat) (span : Span) :
    (Check.method (env.withLimit limit) t method given span).Persists limit
      (Check.method (env.withLimit limit') t method given span) := by
  intro frames
  simp only [run, Check.method]
  cases ht : t.resolveArgs (frames.typeParam span) with
  | error e => exact .inl rfl
  | ok u =>
    rcases env.method_withLimit hle frames u method.name span with hsame | ⟨e, hmethod, hout⟩
    · simp only [bind, Except.bind, hsame, true_or]
    · simp only [bind, Except.bind, hmethod]
      exact .inr ⟨e, frames, rfl, hout⟩

mutual

theorem persists_expr (hle : limit ≤ limit') : ∀ (e : Expr) (expected : Ty),
    (expr (env.withLimit limit) e expected).Persists limit (expr (env.withLimit limit') e expected)
  | ⟨kind, _, span⟩, expected => by
    rw [expr, expr]
    exact (persists_exprKind hle span kind expected).bind fun _ => persists_refl _
termination_by structural e => e

/-- Only a method call asks for the limit. -/
theorem persists_exprKind (hle : limit ≤ limit') (span : Span) : ∀ (kind : ExprKind) (expected : Ty),
    (exprKind (env.withLimit limit) span kind expected).Persists limit
      (exprKind (env.withLimit limit') span kind expected)
  | .block ⟨statements, tail, traits, aliases⟩, expected => by
    rw [exprKind, exprKind, openBlock_withLimit, openBlock_withLimit]
    refine .inFrame ((persists_refl _).bind fun _ => (persists_exprs hle statements).bind fun _ => ?_)
    cases tail with
    | none => exact persists_refl _
    | some tail =>
      exact (persists_refl _).bind fun t => (persists_expr hle tail t).bind fun _ => persists_refl _
  | .letIn pattern declared value, expected => by
    rw [exprKind, exprKind, resolveType_withLimit, resolveType_withLimit]
    exact (persists_refl _).bind fun _ => (persists_expr hle value _).bind fun _ => persists_refl _
  | .assign place value, expected => by
    rw [exprKind, exprKind]
    exact (persists_expr hle place _).bind fun _ => (persists_expr hle value _).bind fun _ =>
      persists_refl _
  | .ret value, expected => by
    rw [exprKind, exprKind]
    exact (persists_optional hle value).bind fun _ => persists_refl _
  | .cond condition thenBranch elseBranch, expected => by
    rw [exprKind, exprKind]
    refine (persists_expr hle condition _).bind fun _ => (persists_expr hle thenBranch _).bind fun _ => ?_
    cases elseBranch with
    | none => exact persists_refl _
    | some elseBranch => exact (persists_expr hle elseBranch _).bind fun _ => persists_refl _
  | .matchOn value arms, expected => by
    rw [exprKind, exprKind]
    exact (persists_expr hle value _).bind fun v =>
      (persists_matchArms hle span v.type arms expected).bind fun _ => persists_refl _
  | .callPath path args, expected => by
    rw [exprKind, exprKind]
    exact (persists_exprs hle args).bind fun _ => persists_refl _
  | .callMethod receiver method args, expected => by
    rw [exprKind, exprKind]
    refine (persists_expr hle receiver _).bind fun r => (persists_exprs hle args).bind fun as => ?_
    exact (persists_method env hle r.type method as.length span).bind fun _ => persists_refl _
  | .callValue callee args, expected => by
    rw [exprKind, exprKind]
    exact (persists_expr hle callee _).bind fun _ => (persists_exprs hle args).bind fun _ =>
      persists_refl _
  | .named path, expected => by
    rw [exprKind, exprKind]
    exact persists_refl _
  | .field object name, expected => by
    rw [exprKind, exprKind]
    exact (persists_expr hle object _).bind fun _ => persists_refl _
  | .index value index, expected => by
    rw [exprKind, exprKind]
    exact (persists_expr hle value _).bind fun _ => (persists_expr hle index _).bind fun _ =>
      persists_refl _
  | .deref value, expected => by
    rw [exprKind, exprKind]
    exact (persists_expr hle value _).bind fun _ => persists_refl _
  | .borrow kind value, expected => by
    rw [exprKind, exprKind]
    exact (persists_refl _).bind fun t => (persists_expr hle value t).bind fun _ => persists_refl _
  | .cast value target, expected => by
    rw [exprKind, exprKind, resolveType_withLimit, resolveType_withLimit]
    exact (persists_refl _).bind fun _ => (persists_expr hle value _).bind fun _ => persists_refl _
  | .tuple items, expected => by
    rw [exprKind, exprKind]
    exact (persists_exprs hle items).bind fun _ => persists_refl _
  | .literal value, expected => by
    rw [exprKind, exprKind]
    exact persists_refl _
  | .binary op left right, expected => by
    rw [exprKind, exprKind]
    exact (persists_expr hle left _).bind fun _ => (persists_expr hle right _).bind fun _ =>
      persists_refl _
termination_by structural kind => kind

theorem persists_exprs (hle : limit ≤ limit') : ∀ es : List Expr,
    (exprs (env.withLimit limit) es).Persists limit (exprs (env.withLimit limit') es)
  | [] => persists_refl _
  | e :: es => by
    rw [exprs, exprs]
    exact (persists_expr hle e _).bind fun _ => (persists_exprs hle es).bind fun _ => persists_refl _
termination_by structural es => es

theorem persists_optional (hle : limit ≤ limit') : ∀ e : Option Expr,
    (optional (env.withLimit limit) e).Persists limit (optional (env.withLimit limit') e)
  | none => persists_refl _
  | some e => by
    rw [optional, optional]
    exact (persists_expr hle e _).bind fun _ => persists_refl _
termination_by structural e => e

theorem persists_matchArms (hle : limit ≤ limit') (span : Span) (scrutinee : Ty) :
    ∀ (arms : List Arm) (expected : Ty),
    (matchArms (env.withLimit limit) span scrutinee arms expected).Persists limit
      (matchArms (env.withLimit limit') span scrutinee arms expected)
  | [], _ => persists_refl _
  | ⟨patterns, guard, code⟩ :: rest, expected => by
    rw [matchArms, matchArms]
    refine .bind (.inFrame ?_) fun r =>
      (persists_matchArms hle span scrutinee rest r.2).bind fun _ => persists_refl _
    refine (persists_refl _).bind fun _ => (persists_optional hle guard).bind fun _ => ?_
    exact (persists_refl _).bind fun t => (persists_expr hle code t).bind fun _ => persists_refl _
termination_by structural arms => arms

end

theorem persists_function (hle : limit ≤ limit') (d : Function) :
    (function (env.withLimit limit) d).Persists limit (function (env.withLimit limit') d) := by
  rw [function, function, resolveType_withLimit, resolveType_withLimit, functionArgs_withLimit,
    functionArgs_withLimit]
  refine .inFrame ((persists_refl _).bind fun _ => (persists_refl _).bind fun ret => ?_)
  refine .bind (persists_refl _) fun args => ?_
  cases d.code with
  | none => exact persists_refl _
  | some code => exact (persists_expr env hle code ret).bind fun _ => persists_refl _

theorem persists_implItems (hle : limit ≤ limit') (items : List ImplItem) :
    (implItems (env.withLimit limit) items).Persists limit
      (implItems (env.withLimit limit') items) := by
  induction items with
  | nil => exact persists_refl _
  | cons item rest ih =>
    obtain ⟨name, member⟩ := item
    cases member with
    | function body =>
      rw [implItems, implItems]
      exact (persists_function env hle body).bind fun _ => ih.bind fun _ => persists_refl _
    | const type value => exact ih.bind fun _ => persists_refl _
    | type target => exact ih.bind fun _ => persists_refl _

theorem persists_implBlock (hle : limit ≤ limit') (d : ImplBlock) :
    (implBlock (env.withLimit limit) d).Persists limit (implBlock (env.withLimit limit') d) := by
  rw [implBlock, implBlock]
  exact .inFrame ((persists_refl _).bind fun _ =>
    (persists_implItems env hle d.items).bind fun _ => persists_refl _)

mutual

theorem persists_module (hle : limit ≤ limit') (parents : List String) : ∀ m : Module,
    (module (env.withLimit limit) parents m).Persists limit
      (module (env.withLimit limit') parents m)
  | ⟨name, uses, held⟩ => by
    rw [module, module]
    exact ((persists_items hle parents held).bind fun _ => persists_refl _).isolated _

theorem persists_item (hle : limit ≤ limit') (parents : List String) : ∀ i : Item,
    (item (env.withLimit limit) parents i).Persists limit (item (env.withLimit limit') parents i)
  | .function d => by
    rw [item, item]
    exact (persists_function env hle d).bind fun _ => persists_refl _
  | .impl d => by
    rw [item, item, Env.implMethods_withLimit, Env.implMethods_withLimit]
    by_cases himpls : env.options.implMethods = true
    · rw [if_pos himpls, if_pos himpls]
      exact (persists_implBlock env hle d).bind fun _ => persists_refl _
    · rw [if_neg himpls, if_neg himpls]
      exact persists_refl _
  | .module m => by
    rw [item, item]
    exact (persists_module hle (parents ++ [m.name]) m).bind fun _ => persists_refl _
  | .struct _ | .enum _ | .traitDef _ | .static _ | .typeAlias _ => persists_refl _

theorem persists_items (hle : limit ≤ limit') (parents : List String) : ∀ is : List Item,
    (items (env.withLimit limit) parents is).Persists limit
      (items (env.withLimit limit') parents is)
  | [] => persists_refl _
  | i :: is => by
    rw [items, items]
    exact (persists_item hle parents i).bind fun _ => (persists_items hle parents is).bind fun _ =>
      persists_refl _

end

end Check

/-- Under a higher limit an accepted program is accepted with the same types, and a refused one is
refused for the same reason unless the lower limit was too low for one of its method calls. -/
theorem Program.check_raised_derefLimit (p : Program) (implMethods : Bool) {limit limit' : Nat}
    (hle : limit ≤ limit') :
    (∀ root, p.check ⟨limit, implMethods⟩ = .ok root → p.check ⟨limit', implMethods⟩ = .ok root) ∧
      ∀ e, p.check ⟨limit, implMethods⟩ = .error e →
        p.check ⟨limit', implMethods⟩ = .error e ∨ e.RunsOut limit := by
  have hmodule := Check.persists_module ⟨p.symbols, ⟨limit, implMethods⟩⟩ hle [] p.root []
  rcases hmodule with hsame | ⟨e, after, hrun, hout⟩
  · have hcheck : p.check ⟨limit, implMethods⟩ = p.check ⟨limit', implMethods⟩ :=
      congrArg Prod.fst hsame
    exact ⟨fun root h => hcheck ▸ h, fun e h => .inl (hcheck ▸ h)⟩
  · have hcheck : p.check ⟨limit, implMethods⟩ = .error e := congrArg Prod.fst hrun
    refine ⟨fun root h => absurd (hcheck.symm.trans h) nofun, fun e' h => .inr ?_⟩
    exact Except.error.inj (hcheck.symm.trans h) ▸ hout

/-- In source form, `struct Foo`, `impl Foo { fn m(self: &Self) -> u32 }` and
`fn call(x: &&Foo) -> _ { x.m() }`. -/
def Module.layered : Module :=
  let shared (t : Ty) : Ty := .borrow .shared t
  let arg (name : String) (type : Ty) : FunctionArg := ⟨.identifier name .immutable default, type⟩
  let m : Function := ⟨"m", ⟨[], []⟩, [arg "self" (shared (.path (.bare "Self")))],
    .primitive .u32, none, default⟩
  ⟨"", [], [
    .struct ⟨"Foo", ⟨[], []⟩, [], default⟩,
    .impl ⟨⟨[], []⟩, none, .path (.bare "Foo"), [⟨"m", .function m⟩], default⟩,
    .function ⟨"call", ⟨[], []⟩, [arg "x" (shared (shared (.path (.bare "Foo"))))], .wildcard,
      some ⟨.callMethod ⟨.named (.bare "x"), .wildcard, default⟩ ⟨"m", []⟩ [], .wildcard, default⟩,
      default⟩]⟩

/-- Two references have to be removed: a limit of one is too low, and from two on the limit does not
matter. -/
theorem Program.check_raised_derefLimit_layered : ∃ p root e, ofModule .layered = .ok p ∧
    p.check ⟨1, true⟩ = .error e ∧ e.RunsOut 1 ∧
    p.check ⟨2, true⟩ = .ok root ∧ p.check ⟨64, true⟩ = .ok root := by
  have hlimits (p : Program) (root : Module) (e : Error) (htwo : p.check ⟨2, true⟩ = .ok root)
      (hone : p.check ⟨1, true⟩ = .error e) : p.check ⟨1, true⟩ = .error e ∧ e.RunsOut 1 ∧
        p.check ⟨2, true⟩ = .ok root ∧ p.check ⟨64, true⟩ = .ok root := by
    refine ⟨hone, ?_, htwo, (p.check_raised_derefLimit true (by decide)).1 root htwo⟩
    refine ((p.check_raised_derefLimit true (Nat.le_succ 1)).2 e hone).resolve_left ?_
    exact fun h => nomatch htwo.symm.trans h
  exact ⟨_, _, _, rfl, hlimits _ _ _ rfl rfl⟩

end BorrowLang
