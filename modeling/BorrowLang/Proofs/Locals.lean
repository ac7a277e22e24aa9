import BorrowLang.Proofs.PatternLocals

/-!
Which local each bare name of a body stands for: the latest one of the innermost scope that has the
name. No type is looked at.
-/
namespace BorrowLang

/-- An expression that names a local. -/
structure Use where
  type : Ty
  /-- The expression is the whole value of a `let`. -/
  initializes : Bool

/-- A local of a body with the expressions that name it. -/
structure Declared where
  name : String
  uses : List Use

namespace Declared

def unused (name : String) : Declared := ⟨name, []⟩

def addUse (u : Use) (d : Declared) : Declared := { d with uses := u :: d.uses }

/-- One more use for the first local of the name. -/
def useFirst? (name : String) (u : Use) : List Declared → Option (List Declared)
  | [] => none
  | d :: ds =>
    if d.name = name then some (d.addUse u :: ds) else (useFirst? name u ds).map (d :: ·)

/-- One more use for the local of the name in the first scope that has one. -/
def useInnermost? (name : String) (u : Use) : List (List Declared) → Option (List (List Declared))
  | [] => none
  | ds :: scopes =>
    match useFirst? name u ds with
    | some ds => some (ds :: scopes)
    | none => (useInnermost? name u scopes).map (ds :: ·)

end Declared

/-- The locals met so far. -/
structure Locals where
  /-- Innermost scope first, and in it the latest local first. -/
  opened : List (List Declared)
  /-- Those whose scope has ended. -/
  closed : List Declared

namespace Locals

def enter (ls : Locals) : Locals := { ls with opened := [] :: ls.opened }

def leave : Locals → Locals
  | ⟨[], closed⟩ => ⟨[], closed⟩
  | ⟨ds :: scopes, closed⟩ => ⟨scopes, ds ++ closed⟩

def declare (names : List String) : Locals → Locals
  | ⟨[], closed⟩ => ⟨[], closed⟩
  | ⟨ds :: scopes, closed⟩ => ⟨(names.reverse.map .unused ++ ds) :: scopes, closed⟩

/-- There is no answer where no open scope has the name. -/
def use? (name : String) (u : Use) (ls : Locals) : Option Locals :=
  (Declared.useInnermost? name u ls.opened).map fun opened => { ls with opened }

def declarePatterns (ps : List Pattern) (ls : Locals) : Locals :=
  ls.declare ((patternIdentifiers ps).map (·.1))

mutual

/-- The locals met up to the end of the expression. -/
def expr (initializes : Bool) : Expr → Locals → Option Locals
  | ⟨kind, type, _⟩, ls => exprKind ⟨type, initializes⟩ kind ls

/-- The parts come in the order in which they are run. A name is in scope from the end of its `let`
to the end of the block or arm. -/
def exprKind (u : Use) : ExprKind → Locals → Option Locals
  | .block ⟨statements, tail, _, _⟩, ls => do
    let ls ← exprs statements ls.enter
    return (← optional tail ls).leave
  | .letIn pattern _ value, ls => return (← expr true value ls).declarePatterns [pattern]
  | .assign place value, ls => do expr false value (← expr false place ls)
  | .ret value, ls => optional value ls
  | .cond condition thenBranch elseBranch, ls => do
    let ls ← expr false condition ls
    optional elseBranch (← expr false thenBranch ls)
  | .matchOn value branches, ls => do arms branches (← expr false value ls)
  | .callPath _ args, ls => exprs args ls
  | .callMethod receiver _ args, ls => do exprs args (← expr false receiver ls)
  | .callValue callee args, ls => do exprs args (← expr false callee ls)
  | .named path, ls =>
    match path.soleName? with
    | some name => ls.use? name u
    | none => some ls
  | .field object _, ls => expr false object ls
  | .index value index, ls => do expr false index (← expr false value ls)
  | .deref value, ls => expr false value ls
  | .borrow _ value, ls => expr false value ls
  | .cast value _, ls => expr false value ls
  | .tuple items, ls => exprs items ls
  | .literal _, ls => some ls
  | .binary _ left right, ls => do expr false right (← expr false left ls)

def optional : Option Expr → Locals → Option Locals
  | none, ls => some ls
  | some e, ls => expr false e ls

def exprs : List Expr → Locals → Option Locals
  | [], ls => some ls
  | e :: es, ls => do exprs es (← expr false e ls)

def arms : List Arm → Locals → Option Locals
  | [], ls => some ls
  | ⟨patterns, guard, code⟩ :: rest, ls => do
    let ls ← optional guard (ls.enter.declarePatterns patterns)
    arms rest (← expr false code ls).leave

end

theorem expr_derefTimes (n : Nat) (e : Expr) (ls : Locals) :
    expr false (e.derefTimes n) ls = expr false e ls := by
  induction n generalizing e with
  | zero => rfl
  | succ n ih =>
    rw [Expr.derefTimes, ih, expr, exprKind]

end Locals

/-- The locals of a function, its arguments among them, if every bare name in it stands for one. -/
def Function.locals? (d : Function) : Option (List Declared) := do
  let ls := (Locals.enter ⟨[], []⟩).declarePatterns (d.args.map (·.pattern))
  return (← Locals.optional d.code ls).leave.closed

end BorrowLang
