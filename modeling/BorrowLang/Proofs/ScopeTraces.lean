import BorrowLang.Proofs.PatternLocals
import BorrowLang.Proofs.Renaming
import BorrowLang.Proofs.TwinFrames

/-!
How the check of a body is put together from steps of which only declarations and uses touch a
local, and the trace that this gives for a run.
-/
namespace BorrowLang

/-- A scope event, with the frames that a run has when it comes to it. -/
structure ScopeStep where
  event : ScopeEvent
  before : Frames

namespace Check

/-- The check is put together like this, and the events are those that it comes to if it succeeds. -/
inductive Plan : List ScopeEvent → {α : Type} → Check α → Type 1
  | blind {α : Type} {c : Check α} : c.Blind → Plan [] c
  | declare (v : Local) (span : Span) : Plan [.declare v.name] (declare v span)
  | use (name : String) (expected : Ty) (span : Span) :
    Plan [.use name] (useLocal name expected span)
  | bind {α β : Type} {events events' : List ScopeEvent} {c : Check α} {g : α → Check β} :
    Plan events c → (∀ a, Plan events' (g a)) → Plan (events ++ events') (c >>= g)
  | after {α β : Type} {events : List ScopeEvent} {c : Check α} {g : α → Check β} :
    c.Blind → (∀ a, c.Yields a → Plan events (g a)) → Plan events (c >>= g)
  | last {α β : Type} {events : List ScopeEvent} {c : Check α} {g : α → Check β} :
    Plan events c → (∀ a, (g a).Blind) → Plan events (c >>= g)
  | inFrame {α : Type} {events : List ScopeEvent} {c : Check α} :
    Plan events c → Plan (.enter :: (events ++ [.leave])) (inFrame c)

/-- The steps of a run, up to where it fails if it does. -/
def Plan.trace {α : Type} {events : List ScopeEvent} {c : Check α} :
    Plan events c → Frames → List ScopeStep
  | .blind _, _ => []
  | .declare v _, fs => [⟨.declare v.name, fs⟩]
  | .use name _ _, fs => [⟨.use name, fs⟩]
  | @bind _ _ _ _ c _ p q, fs =>
    p.trace fs ++ match c.run fs with
      | (.ok a, mid) => (q a).trace mid
      | (.error _, _) => []
  | @after _ _ _ c _ _ q, fs =>
    match h : c.run fs with
    | (.ok a, mid) => (q a ⟨fs, mid, h⟩).trace mid
    | (.error _, _) => []
  | .last p _, fs => p.trace fs
  | @inFrame _ _ c p, fs =>
    ⟨.enter, fs⟩ :: (p.trace (.empty :: fs) ++ match c.run (.empty :: fs) with
      | (.ok _, mid) => [⟨.leave, mid⟩]
      | (.error _, _) => [])

section
variable {α β : Type} {events : List ScopeEvent} {c : Check α} {g : α → Check β} {hc : c.Blind}
  {q : ∀ a, c.Yields a → Plan events (g a)} {fs mid : Frames}

theorem Plan.trace_after_of_ok {a : α} (h : c.run fs = (.ok a, mid)) :
    (Plan.after hc q).trace fs = (q a ⟨fs, mid, h⟩).trace mid := by
  rw [trace]
  split
  · next h' =>
    obtain ⟨ha, rfl⟩ := Prod.mk.inj (h.symm.trans h')
    cases ha
    rfl
  · next h' =>
    rw [h] at h'
    cases h'

theorem Plan.trace_after_of_error {e : Error} (h : c.run fs = (.error e, mid)) :
    (Plan.after hc q).trace fs = [] := by
  rw [trace]
  split
  · next h' =>
    rw [h] at h'
    cases h'
  · rfl

end

/-- A check that goes on where something was found. -/
def foundPlan {events events' : List ScopeEvent} {g : Ty → Check Unit} {c : Check Unit} (e : Error)
    (p : (t : Ty) → Plan events (g t)) (q : Plan events' c) : (found : Option Ty) →
    Plan (events ++ events') (match found with
      | none => throw e >>= fun (_ : Unit) => c
      | some t => g t >>= fun _ => c)
  | none => .after (blind_throw e) fun a h => absurd h (not_yields_throw e a)
  | some t => .bind (p t) fun _ => q

section Patterns
variable (s : Symbols)

mutual

def patternPlan : (p : Pattern) → (t : Ty) → Plan p.events (pattern s p t)
  | .wildcard _, _ => .blind (blind_pure ())
  | .identifier name mutability span, t => .declare ⟨name, mutability, t⟩ span
  | .literal _ _, _ => .blind (blind_ofResult _)
  | .tuple items _, _ =>
    .after (blind_ofResult _) fun ts h =>
      patternsPlan items ts (Ty.length_of_tupleParts h.of_ofResult)
  | .reference inner _, _ => .after (blind_ofResult _) fun t _ => patternPlan inner t
  | .variant _ items _, _ =>
    .after (blind_ofResult _) fun ts h =>
      patternsPlan items ts (Symbols.length_of_variantParts h.of_ofResult)
  | .fields path fields span, _ =>
    .after (blind_ofResult _) fun parts _ => fieldPatternsPlan path span parts fields

def patternsPlan : (ps : List Pattern) → (ts : List Ty) → ts.length = ps.length →
    Plan (patternEvents ps) (patterns s ps ts)
  | [], _, _ => .blind (blind_pure ())
  | p :: ps, t :: ts, hlen =>
    .bind (patternPlan p t) fun _ => patternsPlan ps ts (Nat.succ.inj hlen)

def fieldPatternsPlan (path : Path) (span : Span) (parts : List (String × Ty)) :
    (fields : List (String × Pattern)) →
      Plan (fieldEvents fields) (fieldPatterns s path span parts fields)
  | [] => .blind (blind_pure ())
  | (name, p) :: rest =>
    foundPlan (.unresolvedMember s!"no field `{name}` on `{path}`" span)
      (fun t => patternPlan p t) (fieldPatternsPlan path span parts rest) (parts.lookup name)

end

end Patterns

section
variable (env : Env)

def eachPatternPlan (s : Symbols) : (ps : List Pattern) → (t : Ty) →
    Plan (patternEvents ps) (eachPattern s ps t)
  | [], _ => .blind (blind_pure ())
  | p :: ps, t => .bind (patternPlan s p t) fun _ => eachPatternPlan s ps t

/-- A path that is a name by itself is the use of a local. -/
def namedPlan (span : Span) (path : Path) (expected : Ty) : (name? : Option String) →
    Plan (name?.map ScopeEvent.use).toList (match name? with
      | some name => do return (ExprKind.named path, ← useLocal name expected span)
      | none => do
        let type ← ofResult (env.symbols.valueType path span)
        return (ExprKind.named path, ← merge expected type span))
  | some name => .last (.use name expected span) fun _ => blind_pure _
  | none => .blind ((blind_ofResult _).bind fun _ => (blind_merge ..).bind fun _ => blind_pure _)

/-- What most expressions end with. -/
theorem blind_merge_pure {α : Type} (t u : Ty) (span : Span) (g : Ty → α) :
    (merge t u span >>= fun v => pure (g v)).Blind := (blind_merge ..).bind fun _ => blind_pure _

mutual

def exprPlan : (e : Expr) → (expected : Ty) → Plan e.events (expr env e expected)
  | ⟨kind, _, span⟩, expected => .last (kindPlan span kind expected) fun _ => blind_pure _

def kindPlan (span : Span) : (kind : ExprKind) → (expected : Ty) →
    Plan kind.events (exprKind env span kind expected)
  | .block ⟨statements, none, traits, aliases⟩, _ =>
    .inFrame (.after (blind_openBlock env span traits aliases) fun _ _ =>
      .bind (exprsPlan statements) fun _ => .blind (blind_pure _))
  | .block ⟨statements, some tail, traits, aliases⟩, expected =>
    .inFrame (.after (blind_openBlock env span traits aliases) fun _ _ =>
      .bind (exprsPlan statements) fun _ =>
        .after (blind_merge ..) fun t _ =>
          .last (exprPlan tail t) fun _ => blind_merge_pure ..)
  | .letIn pattern declared value, _ =>
    .after (blind_resolveType env span declared) fun _ _ =>
      .bind (exprPlan value _) fun _ =>
        .after (blind_ofResult _) fun _ _ =>
          .last (patternPlan env.symbols pattern _) fun _ => blind_merge_pure ..
  | .assign place value, _ =>
    .bind (exprPlan place _) fun _ => .last (exprPlan value _) fun _ => blind_merge_pure ..
  | .ret value, _ => .last (optionalPlan value) fun _ => blind_pure _
  | .cond condition thenBranch none, _ =>
    .bind (exprPlan condition _) fun _ =>
      .bind (exprPlan thenBranch _) fun _ => .blind (blind_merge_pure ..)
  | .cond condition thenBranch (some elseBranch), _ =>
    .bind (exprPlan condition _) fun _ =>
      .bind (exprPlan thenBranch _) fun _ =>
        .last (exprPlan elseBranch _) fun _ => (blind_merge ..).bind fun _ => blind_merge_pure ..
  | .matchOn value arms, expected =>
    .bind (exprPlan value _) fun _ =>
      .last (matchArmsPlan span _ arms expected) fun _ => blind_pure _
  | .callPath _ args, _ =>
    .last (exprsPlan args) fun _ => (blind_ofResult _).bind fun _ => blind_merge_pure ..
  | .callMethod receiver _ args, _ =>
    .bind (exprPlan receiver _) fun _ =>
      .last (exprsPlan args) fun _ => (blind_method ..).bind fun _ => blind_merge_pure ..
  | .callValue callee args, _ =>
    .bind (exprPlan callee _) fun _ => .last (exprsPlan args) fun _ => blind_pure _
  | .named path, expected => namedPlan env span path expected path.soleName?
  | .field object name, expected =>
    .last (exprPlan object _) fun object => by
      split
      · exact blind_pure _
      · exact (blind_ofResult _).bind fun _ => blind_merge_pure ..
  | .index value index, _ =>
    .bind (exprPlan value _) fun _ => .last (exprPlan index _) fun _ => blind_merge_pure ..
  | .deref value, _ =>
    .last (exprPlan value _) fun _ => (blind_ofResult _).bind fun _ => blind_merge_pure ..
  | .borrow _ value, _ =>
    .after (blind_merge ..) fun inside _ =>
      .last (exprPlan value inside) fun _ => blind_merge_pure ..
  | .cast value target, _ =>
    .after (blind_resolveType env span target) fun _ _ =>
      .last (exprPlan value _) fun _ => blind_merge_pure ..
  | .tuple items, _ => .last (exprsPlan items) fun _ => blind_merge_pure ..
  | .literal _, _ => .blind (blind_merge_pure ..)
  | .binary _ left right, _ =>
    .bind (exprPlan left _) fun _ =>
      .last (exprPlan right _) fun _ => (blind_ofResult _).bind fun _ => blind_merge_pure ..

def exprsPlan : (es : List Expr) → Plan (exprEvents es) (exprs env es)
  | [] => .blind (blind_pure _)
  | e :: es => .bind (exprPlan e _) fun _ => .last (exprsPlan es) fun _ => blind_pure _

def optionalPlan : (e : Option Expr) → Plan (optionEvents e) (optional env e)
  | none => .blind (blind_pure _)
  | some e => .last (exprPlan e _) fun _ => blind_pure _

def matchArmsPlan (span : Span) (scrutinee : Ty) : (arms : List Arm) → (expected : Ty) →
    Plan (armEvents arms) (matchArms env span scrutinee arms expected)
  | [], _ => .blind (blind_pure _)
  | ⟨patterns, guard, code⟩ :: rest, _ =>
    .bind (.inFrame (.bind (eachPatternPlan env.symbols patterns scrutinee) fun _ =>
      .bind (optionalPlan guard) fun _ => .after (blind_merge ..) fun t _ =>
        .last (exprPlan code t) fun _ => blind_merge_pure ..)) fun (_, type) =>
      .last (matchArmsPlan span scrutinee rest type) fun _ => blind_pure _

end

def functionArgsPlan (span : Span) : (args : List FunctionArg) →
    Plan (argEvents args) (functionArgs env span args)
  | [] => .blind (blind_pure _)
  | ⟨pattern, type⟩ :: rest =>
    .after (blind_resolveType env span type) fun t _ =>
      .bind (patternPlan env.symbols pattern t) fun _ =>
        .last (functionArgsPlan span rest) fun _ => blind_pure _

def functionPlan : (d : Function) → Plan d.events (function env d)
  | ⟨_, params, args, ret, none, span⟩ =>
    .inFrame (.after (blind_declareParams params span) fun _ _ =>
      .after (blind_resolveType env span ret) fun _ _ =>
        .bind (functionArgsPlan env span args) fun _ => .blind (blind_pure _))
  | ⟨_, params, args, ret, some code, span⟩ =>
    .inFrame (.after (blind_declareParams params span) fun _ _ =>
      .after (blind_resolveType env span ret) fun ret _ =>
        .bind (functionArgsPlan env span args) fun _ =>
          .last (exprPlan env code ret) fun _ => blind_pure _)

end
end Check
end BorrowLang
