import BorrowLang.Proofs.Nodes
import BorrowLang.Proofs.ScopeEvents

/-!
The scope events of a body, and bodies with other names for their locals. A new name is chosen event
by event, so that a declaration can be renamed together with the uses that refer to it.
-/
namespace BorrowLang

mutual

def Pattern.events : Pattern → List ScopeEvent
  | .wildcard _ | .literal .. => []
  | .identifier name _ _ => [.declare name]
  | .tuple items _ | .variant _ items _ => patternEvents items
  | .reference inner _ => inner.events
  | .fields _ fields _ => fieldEvents fields

def patternEvents : List Pattern → List ScopeEvent
  | [] => []
  | p :: ps => p.events ++ patternEvents ps

def fieldEvents : List (String × Pattern) → List ScopeEvent
  | [] => []
  | (_, p) :: rest => p.events ++ fieldEvents rest

end

mutual

def Expr.events : Expr → List ScopeEvent
  | ⟨kind, _, _⟩ => kind.events

/-- The pattern of a `let` comes after its value, that of an arm within the arm's own scope. -/
def ExprKind.events : ExprKind → List ScopeEvent
  | .block ⟨statements, tail, _, _⟩ =>
    .enter :: ((exprEvents statements ++ optionEvents tail) ++ [.leave])
  | .letIn pattern _ value => value.events ++ pattern.events
  | .assign place value => place.events ++ value.events
  | .ret value => optionEvents value
  | .cond condition thenBranch elseBranch =>
    condition.events ++ (thenBranch.events ++ optionEvents elseBranch)
  | .matchOn value arms => value.events ++ armEvents arms
  | .callPath _ args => exprEvents args
  | .callMethod receiver _ args => receiver.events ++ exprEvents args
  | .callValue callee args => callee.events ++ exprEvents args
  | .named path => (path.soleName?.map ScopeEvent.use).toList
  | .field object _ => object.events
  | .index value index => value.events ++ index.events
  | .deref value => value.events
  | .borrow _ value => value.events
  | .cast value _ => value.events
  | .tuple items => exprEvents items
  | .literal _ => []
  | .binary _ left right => left.events ++ right.events

def optionEvents : Option Expr → List ScopeEvent
  | none => []
  | some e => e.events

def exprEvents : List Expr → List ScopeEvent
  | [] => []
  | e :: es => e.events ++ exprEvents es

def Arm.events : Arm → List ScopeEvent
  | ⟨patterns, guard, code⟩ =>
    .enter :: ((patternEvents patterns ++ (optionEvents guard ++ code.events)) ++ [.leave])

def armEvents : List Arm → List ScopeEvent
  | [] => []
  | arm :: rest => arm.events ++ armEvents rest

end

def argEvents : List FunctionArg → List ScopeEvent
  | [] => []
  | ⟨pattern, _⟩ :: rest => pattern.events ++ argEvents rest

def Function.events (d : Function) : List ScopeEvent :=
  .enter :: ((argEvents d.args ++ optionEvents d.code) ++ [.leave])

/-- A relative path of one name with another name. -/
def Path.relabel (f : String → String) : Path → Path
  | ⟨false, [s], binding⟩ => ⟨false, [⟨f s.name, s.args⟩], binding⟩
  | p => p

section
-- The new name, by `f k`, of the declaration or use that is event `k`.
variable (f : Nat → String → String)

mutual

/-- The pattern with new names, its first event being number `k`. -/
def Pattern.relabel (k : Nat) : Pattern → Pattern
  | .wildcard span => .wildcard span
  | .identifier name mutability span => .identifier (f k name) mutability span
  | .literal value span => .literal value span
  | .tuple items span => .tuple (patternRelabel k items) span
  | .reference inner span => .reference (inner.relabel k) span
  | .variant path items span => .variant path (patternRelabel k items) span
  | .fields path fields span => .fields path (fieldRelabel k fields) span

def patternRelabel (k : Nat) : List Pattern → List Pattern
  | [] => []
  | p :: ps => p.relabel k :: patternRelabel (k + p.events.length) ps

def fieldRelabel (k : Nat) : List (String × Pattern) → List (String × Pattern)
  | [] => []
  | (name, p) :: rest => (name, p.relabel k) :: fieldRelabel (k + p.events.length) rest

end

mutual

/-- The expression with new names, its first event being number `k`. -/
def Expr.relabel (k : Nat) : Expr → Expr
  | ⟨kind, type, span⟩ => ⟨kind.relabel k, type, span⟩

def ExprKind.relabel (k : Nat) : ExprKind → ExprKind
  | .block ⟨statements, tail, traits, aliases⟩ =>
    .block ⟨exprRelabel (k + 1) statements,
      optionRelabel (k + 1 + (exprEvents statements).length) tail, traits, aliases⟩
  | .letIn pattern type value =>
    .letIn (pattern.relabel f (k + value.events.length)) type (value.relabel k)
  | .assign place value => .assign (place.relabel k) (value.relabel (k + place.events.length))
  | .ret value => .ret (optionRelabel k value)
  | .cond condition thenBranch elseBranch =>
    .cond (condition.relabel k) (thenBranch.relabel (k + condition.events.length))
      (optionRelabel (k + condition.events.length + thenBranch.events.length) elseBranch)
  | .matchOn value arms => .matchOn (value.relabel k) (armRelabel (k + value.events.length) arms)
  | .callPath path args => .callPath path (exprRelabel k args)
  | .callMethod receiver method args =>
    .callMethod (receiver.relabel k) method (exprRelabel (k + receiver.events.length) args)
  | .callValue callee args =>
    .callValue (callee.relabel k) (exprRelabel (k + callee.events.length) args)
  | .named path => .named (path.relabel (f k))
  | .field object name => .field (object.relabel k) name
  | .index value index => .index (value.relabel k) (index.relabel (k + value.events.length))
  | .deref value => .deref (value.relabel k)
  | .borrow kind value => .borrow kind (value.relabel k)
  | .cast value target => .cast (value.relabel k) target
  | .tuple items => .tuple (exprRelabel k items)
  | .literal value => .literal value
  | .binary op left right =>
    .binary op (left.relabel k) (right.relabel (k + left.events.length))

def optionRelabel (k : Nat) : Option Expr → Option Expr
  | none => none
  | some e => some (e.relabel k)

def exprRelabel (k : Nat) : List Expr → List Expr
  | [] => []
  | e :: es => e.relabel k :: exprRelabel (k + e.events.length) es

def Arm.relabel (k : Nat) : Arm → Arm
  | ⟨patterns, guard, code⟩ =>
    ⟨patternRelabel f (k + 1) patterns,
      optionRelabel (k + 1 + (patternEvents patterns).length) guard,
      code.relabel (k + 1 + (patternEvents patterns).length + (optionEvents guard).length)⟩

def armRelabel (k : Nat) : List Arm → List Arm
  | [] => []
  | arm :: rest => arm.relabel k :: armRelabel (k + arm.events.length) rest

end

def argRelabel (k : Nat) : List FunctionArg → List FunctionArg
  | [] => []
  | ⟨pattern, type⟩ :: rest =>
    ⟨pattern.relabel f k, type⟩ :: argRelabel (k + pattern.events.length) rest

/-- The function with new names for its locals. -/
def Function.relabel (d : Function) : Function :=
  { d with
    args := argRelabel f 1 d.args
    code := optionRelabel f (1 + (argEvents d.args).length) d.code }

end

theorem Path.soleName?_relabel (f : String → String) (p : Path) :
    (p.relabel f).soleName? = p.soleName?.map f := by
  unfold relabel
  split
  · rfl
  · next h =>
    have hnone : p.soleName? = none := by
      unfold soleName?
      split
      · exact absurd rfl (h _ _)
      · rfl
    rw [hnone]
    rfl

theorem Path.relabel_of_soleName? {f : String → String} {p : Path} (h : p.soleName? = none) :
    p.relabel f = p := by
  unfold relabel
  split
  · contradiction
  · rfl

/-- The event with another name. -/
def ScopeEvent.relabel (f : String → String) : ScopeEvent → ScopeEvent
  | .enter => .enter
  | .leave => .leave
  | .declare name => .declare (f name)
  | .use name => .use (f name)

section
variable (f : Nat → String → String)

/-- The events with new names, the first being number `k`. -/
def relabelEvents (k : Nat) (events : List ScopeEvent) : List ScopeEvent :=
  (events.zipIdx k).map fun (e, i) => e.relabel (f i)

@[simp] theorem relabelEvents_nil (k : Nat) : relabelEvents f k [] = [] := rfl

@[simp] theorem relabelEvents_cons (k : Nat) (e : ScopeEvent) (events : List ScopeEvent) :
    relabelEvents f k (e :: events) = e.relabel (f k) :: relabelEvents f (k + 1) events := rfl

@[simp] theorem relabelEvents_append (k : Nat) (events events' : List ScopeEvent) :
    relabelEvents f k (events ++ events') =
      relabelEvents f k events ++ relabelEvents f (k + events.length) events' := by
  rw [relabelEvents, List.zipIdx_append, List.map_append, relabelEvents, relabelEvents]

mutual

theorem Pattern.events_relabel (k : Nat) : ∀ p : Pattern,
    (p.relabel f k).events = relabelEvents f k p.events
  | .wildcard _ | .literal .. => rfl
  | .identifier .. => rfl
  | .tuple items _ | .variant _ items _ => patternEvents_relabel k items
  | .reference inner _ => inner.events_relabel k
  | .fields _ fields _ => fieldEvents_relabel k fields

theorem patternEvents_relabel (k : Nat) : ∀ ps : List Pattern,
    patternEvents (patternRelabel f k ps) = relabelEvents f k (patternEvents ps)
  | [] => rfl
  | p :: ps => by
    rw [patternRelabel, patternEvents, patternEvents, relabelEvents_append, p.events_relabel k,
      patternEvents_relabel _ ps]

theorem fieldEvents_relabel (k : Nat) : ∀ fields : List (String × Pattern),
    fieldEvents (fieldRelabel f k fields) = relabelEvents f k (fieldEvents fields)
  | [] => rfl
  | (_, p) :: rest => by
    rw [fieldRelabel, fieldEvents, fieldEvents, relabelEvents_append, p.events_relabel k,
      fieldEvents_relabel _ rest]

end

mutual

theorem Expr.events_relabel (k : Nat) : ∀ e : Expr,
    (e.relabel f k).events = relabelEvents f k e.events
  | ⟨kind, _, _⟩ => kind.events_relabel k

theorem ExprKind.events_relabel (k : Nat) : ∀ kind : ExprKind,
    (kind.relabel f k).events = relabelEvents f k kind.events
  | .block ⟨statements, tail, _, _⟩ => by
    simp only [ExprKind.relabel, ExprKind.events, exprEvents_relabel _ statements,
      optionEvents_relabel _ tail, relabelEvents_cons, relabelEvents_append, relabelEvents_nil]
    rfl
  | .letIn pattern _ value => by
    simp only [ExprKind.relabel, ExprKind.events, value.events_relabel, pattern.events_relabel,
      relabelEvents_append]
  | .assign left right | .index left right | .binary _ left right => by
    simp only [ExprKind.relabel, ExprKind.events, left.events_relabel, right.events_relabel,
      relabelEvents_append]
  | .ret value => optionEvents_relabel k value
  | .cond condition thenBranch elseBranch => by
    simp only [ExprKind.relabel, ExprKind.events, condition.events_relabel,
      thenBranch.events_relabel, optionEvents_relabel _ elseBranch, relabelEvents_append]
  | .matchOn value arms => by
    simp only [ExprKind.relabel, ExprKind.events, value.events_relabel, armEvents_relabel _ arms,
      relabelEvents_append]
  | .callPath _ args => exprEvents_relabel k args
  | .callMethod first _ args | .callValue first args => by
    simp only [ExprKind.relabel, ExprKind.events, first.events_relabel, exprEvents_relabel _ args,
      relabelEvents_append]
  | .named path => by
    rw [ExprKind.relabel, ExprKind.events, ExprKind.events, path.soleName?_relabel]
    cases path.soleName? <;> rfl
  | .field object _ => object.events_relabel k
  | .deref value | .borrow _ value | .cast value _ => value.events_relabel k
  | .tuple items => exprEvents_relabel k items
  | .literal _ => rfl

theorem optionEvents_relabel (k : Nat) : ∀ e : Option Expr,
    optionEvents (optionRelabel f k e) = relabelEvents f k (optionEvents e)
  | none => rfl
  | some e => e.events_relabel k

theorem exprEvents_relabel (k : Nat) : ∀ es : List Expr,
    exprEvents (exprRelabel f k es) = relabelEvents f k (exprEvents es)
  | [] => rfl
  | e :: es => by
    rw [exprRelabel, exprEvents, exprEvents, relabelEvents_append, e.events_relabel k,
      exprEvents_relabel _ es]

theorem Arm.events_relabel (k : Nat) : ∀ arm : Arm,
    (arm.relabel f k).events = relabelEvents f k arm.events
  | ⟨patterns, guard, code⟩ => by
    simp only [Arm.relabel, Arm.events, patternEvents_relabel, optionEvents_relabel _ guard,
      code.events_relabel, relabelEvents_cons, relabelEvents_append, relabelEvents_nil]
    rfl

theorem armEvents_relabel (k : Nat) : ∀ arms : List Arm,
    armEvents (armRelabel f k arms) = relabelEvents f k (armEvents arms)
  | [] => rfl
  | arm :: rest => by
    rw [armRelabel, armEvents, armEvents, relabelEvents_append, arm.events_relabel k,
      armEvents_relabel _ rest]

end

theorem argEvents_relabel (k : Nat) (args : List FunctionArg) :
    argEvents (argRelabel f k args) = relabelEvents f k (argEvents args) := by
  induction args generalizing k with
  | nil => rfl
  | cons arg args ih =>
    obtain ⟨pattern, type⟩ := arg
    rw [argRelabel, argEvents, argEvents, relabelEvents_append, pattern.events_relabel, ih]

/-- The function with new names comes to the same events, with the new names in them. -/
theorem Function.events_relabel (d : Function) :
    (d.relabel f).events = relabelEvents f 0 d.events := by
  simp only [relabel, events, argEvents_relabel, optionEvents_relabel, relabelEvents_cons,
    relabelEvents_append, relabelEvents_nil]
  rfl

end

section
variable {f : Nat → String → String}

theorem Expr.type_relabel (k : Nat) (e : Expr) : (e.relabel f k).type = e.type := by
  obtain ⟨kind, type, span⟩ := e
  rfl

theorem Expr.span_relabel (k : Nat) (e : Expr) : (e.relabel f k).span = e.span := by
  obtain ⟨kind, type, span⟩ := e
  rfl

theorem Expr.retype_relabel (k : Nat) (e : Expr) (type : Ty) :
    { e.relabel f k with type } = Expr.relabel f k { e with type } := by
  obtain ⟨kind, _, span⟩ := e
  rfl

theorem Expr.events_retype (e : Expr) (type : Ty) : Expr.events { e with type } = e.events := by
  obtain ⟨kind, _, span⟩ := e
  rfl

theorem length_patternRelabel (k : Nat) (ps : List Pattern) :
    (patternRelabel f k ps).length = ps.length := by
  induction ps generalizing k with
  | nil => rfl
  | cons p ps ih => rw [patternRelabel, List.length_cons, List.length_cons, ih]

theorem map_type_exprRelabel (k : Nat) (es : List Expr) :
    (exprRelabel f k es).map (·.type) = es.map (·.type) := by
  induction es generalizing k with
  | nil => rfl
  | cons e es ih => rw [exprRelabel, List.map_cons, List.map_cons, e.type_relabel, ih]

theorem length_exprRelabel (k : Nat) (es : List Expr) :
    (exprRelabel f k es).length = es.length := by
  induction es generalizing k with
  | nil => rfl
  | cons e es ih => rw [exprRelabel, List.length_cons, List.length_cons, ih]

theorem Expr.events_derefTimes (n : Nat) (e : Expr) : (e.derefTimes n).events = e.events := by
  induction n generalizing e with
  | zero => rfl
  | succ n ih =>
    rw [derefTimes, ih]
    rfl

/-- A dereference has no events of its own. -/
theorem Expr.derefTimes_relabel (n k : Nat) (e : Expr) :
    (e.relabel f k).derefTimes n = (e.derefTimes n).relabel f k := by
  induction n generalizing e with
  | zero => rfl
  | succ n ih =>
    rw [derefTimes, derefTimes, e.type_relabel, e.span_relabel, ← ih]
    rfl

end

/-- The type found for the expression, and the one that is written in it. -/
def Expr.annotations (e : Expr) : List Ty :=
  e.type :: match e.kind with
    | .letIn _ type _ => [type]
    | .cast _ target => [target]
    | _ => []

/-- The types that are written in the function, and those found in its body. -/
def Function.annotations (d : Function) : List Ty :=
  d.args.map (·.type) ++ d.ret :: (optionNodes d.code).flatMap Expr.annotations

section
variable {f : Nat → String → String}

mutual

theorem Expr.annotations_relabel : ∀ (e : Expr) (k : Nat),
    (e.relabel f k).nodes.flatMap Expr.annotations = e.nodes.flatMap Expr.annotations
  | ⟨kind, type, span⟩, k => by
    have hkind : Expr.annotations ⟨kind.relabel f k, type, span⟩ =
        Expr.annotations ⟨kind, type, span⟩ := by
      cases kind with
      | block body =>
        obtain ⟨statements, tail, traits, aliases⟩ := body
        rfl
      | _ => rfl
    rw [Expr.relabel, Expr.nodes, Expr.nodes, List.flatMap_cons, List.flatMap_cons, hkind,
      kind.annotations_relabel k]

theorem ExprKind.annotations_relabel : ∀ (kind : ExprKind) (k : Nat),
    (kind.relabel f k).nodes.flatMap Expr.annotations = kind.nodes.flatMap Expr.annotations
  | .block ⟨statements, tail, _, _⟩, k => by
    rw [ExprKind.relabel, ExprKind.nodes, ExprKind.nodes, List.flatMap_append, List.flatMap_append,
      exprs_annotations_relabel statements, option_annotations_relabel tail]
  | .letIn _ _ value, k | .deref value, k | .borrow _ value, k | .cast value _, k => by
    rw [ExprKind.relabel, ExprKind.nodes, ExprKind.nodes, value.annotations_relabel]
  | .assign left right, k | .index left right, k | .binary _ left right, k => by
    rw [ExprKind.relabel, ExprKind.nodes, ExprKind.nodes, List.flatMap_append, List.flatMap_append,
      left.annotations_relabel, right.annotations_relabel]
  | .ret value, k => by
    rw [ExprKind.relabel, ExprKind.nodes, ExprKind.nodes, option_annotations_relabel value]
  | .cond condition thenBranch elseBranch, k => by
    rw [ExprKind.relabel, ExprKind.nodes, ExprKind.nodes, List.flatMap_append, List.flatMap_append,
      List.flatMap_append, List.flatMap_append, condition.annotations_relabel,
      thenBranch.annotations_relabel, option_annotations_relabel elseBranch]
  | .matchOn value arms, k => by
    rw [ExprKind.relabel, ExprKind.nodes, ExprKind.nodes, List.flatMap_append, List.flatMap_append,
      value.annotations_relabel, arms_annotations_relabel arms]
  | .callPath _ args, k => by
    rw [ExprKind.relabel, ExprKind.nodes, ExprKind.nodes, exprs_annotations_relabel args]
  | .callMethod first _ args, k | .callValue first args, k => by
    rw [ExprKind.relabel, ExprKind.nodes, ExprKind.nodes, List.flatMap_append, List.flatMap_append,
      first.annotations_relabel, exprs_annotations_relabel args]
  | .field object _, k => by
    rw [ExprKind.relabel, ExprKind.nodes, ExprKind.nodes, object.annotations_relabel]
  | .tuple items, k => by
    rw [ExprKind.relabel, ExprKind.nodes, ExprKind.nodes, exprs_annotations_relabel items]
  | .named _, _ | .literal _, _ => rfl

theorem option_annotations_relabel : ∀ (e : Option Expr) (k : Nat),
    (optionNodes (optionRelabel f k e)).flatMap Expr.annotations =
      (optionNodes e).flatMap Expr.annotations
  | none, _ => rfl
  | some e, k => by
    rw [optionRelabel, optionNodes, optionNodes, e.annotations_relabel]

theorem exprs_annotations_relabel : ∀ (es : List Expr) (k : Nat),
    (exprNodes (exprRelabel f k es)).flatMap Expr.annotations =
      (exprNodes es).flatMap Expr.annotations
  | [], _ => rfl
  | e :: es, k => by
    rw [exprRelabel, exprNodes, exprNodes, List.flatMap_append, List.flatMap_append,
      e.annotations_relabel, exprs_annotations_relabel es]

theorem arms_annotations_relabel : ∀ (arms : List Arm) (k : Nat),
    (armNodes (armRelabel f k arms)).flatMap Expr.annotations =
      (armNodes arms).flatMap Expr.annotations
  | [], _ => rfl
  | ⟨_, guard, code⟩ :: rest, k => by
    rw [armRelabel, Arm.relabel, armNodes, armNodes]
    simp only [List.flatMap_append, option_annotations_relabel guard, code.annotations_relabel,
      arms_annotations_relabel rest]

end

theorem map_type_argRelabel (k : Nat) (args : List FunctionArg) :
    (argRelabel f k args).map (·.type) = args.map (·.type) := by
  induction args generalizing k with
  | nil => rfl
  | cons arg args ih =>
    obtain ⟨pattern, type⟩ := arg
    rw [argRelabel, List.map_cons, List.map_cons, ih]

/-- Other names leave every type as it is. -/
theorem Function.annotations_relabel (d : Function) :
    (d.relabel f).annotations = d.annotations := by
  simp only [annotations, relabel, map_type_argRelabel, option_annotations_relabel]

end

/-- Event `i` is declaration `j`, or a use that refers to it. -/
def Renames (events : List ScopeEvent) (j i : Nat) (name : String) : Prop :=
  i = j ∨ events[i]? = some (.use name) ∧ ScopeEvent.Refers (events.take i) name j

instance (events : List ScopeEvent) (j i : Nat) (name : String) :
    Decidable (Renames events j i name) := inferInstanceAs (Decidable (_ ∨ _))

/-- The name `y` for declaration `j` and the uses that refer to it, and no other new name. -/
def newNames (events : List ScopeEvent) (j : Nat) (y : String) (i : Nat) (name : String) : String :=
  if Renames events j i name then y else name

/-- The function with the name `y` for the local that event `j` declares. -/
def Function.rename (d : Function) (j : Nat) (y : String) : Function :=
  d.relabel (newNames d.events j y)

/-- Only the names of the declaration and of the uses that refer to it become `y`. -/
theorem Function.events_rename (d : Function) (j : Nat) (y : String) :
    (d.rename j y).events = d.events.mapIdx fun i e => e.relabel (newNames d.events j y i) := by
  rw [rename, events_relabel, relabelEvents, List.mapIdx_eq_zipIdx_map]

end BorrowLang
