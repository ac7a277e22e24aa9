import BorrowLang.Symbols.Lookup

/-!
The frames that are open at a place of a body, and the checks that read and change them. A check
that fails leaves the frames as they were when it failed.
-/
namespace BorrowLang

structure Local where
  name : String
  mutability : Mutability
  type : Ty

/-- One lexical scope; in every list the latest entry comes first. -/
structure Frame where
  locals : List Local
  aliases : List (String × Ty)
  typeParams : List String
  traits : List Path

def Frame.empty : Frame := ⟨[], [], [], []⟩

/-- The open frames, innermost first. -/
abbrev Frames := List Frame

namespace Frames

/-- The latest local of the name in the innermost frame that has one. -/
def local? (frames : Frames) (name : String) : Option Local :=
  frames.findSome? fun f => f.locals.find? (·.name == name)

def alias? (frames : Frames) (name : String) : Option Ty :=
  frames.findSome? fun f => f.aliases.lookup name

def hasTypeParam (frames : Frames) (name : String) : Bool :=
  frames.any (·.typeParams.contains name)

/-- Innermost first, and the latest of a frame first. -/
def traits (frames : Frames) : List Path := frames.flatMap (·.traits)

def retypeLocal (name : String) (t : Ty) : List Local → List Local
  | [] => []
  | v :: vs => if v.name = name then { v with type := t } :: vs else v :: retypeLocal name t vs

/-- A new type for the local that the name stands for. -/
def retype (name : String) (t : Ty) : Frames → Frames
  | [] => []
  | f :: fs =>
    if f.locals.any (·.name == name) then { f with locals := retypeLocal name t f.locals } :: fs
    else f :: retype name t fs

@[simp] theorem length_retypeLocal (name : String) (t : Ty) (vs : List Local) :
    (retypeLocal name t vs).length = vs.length := by
  fun_induction retypeLocal name t vs <;> simp_all

@[simp] theorem length_retype (name : String) (t : Ty) (frames : Frames) :
    (frames.retype name t).length = frames.length := by
  fun_induction retype name t frames <;> simp_all

end Frames

/-- What a check needs to know of the program as a whole. -/
structure CheckOptions where
  /-- How many references may be removed from the receiver of a method. -/
  derefLimit : Nat
  implMethods : Bool

def CheckOptions.standard : CheckOptions := ⟨64, true⟩

structure Env where
  symbols : Symbols
  options : CheckOptions

abbrev Check (α : Type) := ExceptT Error (StateM Frames) α

namespace Check

variable {α β : Type}

def run (c : Check α) (frames : Frames) : Result α × Frames := c frames

def ofResult (r : Result α) : Check α := fun frames => (r, frames)

/-- With one more frame, which is closed whether or not the check succeeds. -/
def inFrame (c : Check α) : Check α := fun frames =>
  let (r, after) := c.run (.empty :: frames)
  (r, after.tail)

/-- With no frames but one, the frames outside being untouched. -/
def isolated (f : Frame) (c : Check α) : Check α := fun frames =>
  ((c.run [f]).1, frames)

/-- A change of the innermost frame, without which nothing can be declared. -/
def modifyFrame (span : Span) (change : Frame → Frame) : Check Unit := fun frames =>
  match frames with
  | [] => (.error (.invariantViolation "declaration outside of any scope" span), [])
  | f :: fs => (.ok (), change f :: fs)

def declare (v : Local) (span : Span) : Check Unit :=
  modifyFrame span fun f => { f with locals := v :: f.locals }

/-- The use of a local at a place that expects `expected`: both types merge, and the local keeps
what was learnt. -/
def useLocal (name : String) (expected : Ty) (span : Span) : Check Ty := fun frames =>
  match frames.local? name with
  | none => (.error (.unresolvedName .localVariable name span), frames)
  | some v =>
    match expected.mergeAt v.type span with
    | .error e => (.error e, frames)
    | .ok t => (.ok t, frames.retype name t)

@[simp] theorem run_pure (a : α) (frames : Frames) : run (pure a) frames = (.ok a, frames) := rfl

@[simp] theorem run_throw (e : Error) (frames : Frames) :
    run (throw e : Check α) frames = (.error e, frames) := rfl

@[simp] theorem run_ofResult (r : Result α) (frames : Frames) :
    (ofResult r).run frames = (r, frames) := rfl

/-- What follows a check that fails is not run, and the frames are those of the failure. -/
theorem run_bind (c : Check α) (f : α → Check β) (frames : Frames) :
    run (c >>= f) frames =
      match c.run frames with
      | (.ok a, after) => (f a).run after
      | (.error e, after) => (.error e, after) := by
  change (StateT.bind c (ExceptT.bindCont f)) frames = _
  simp only [StateT.bind, run]
  rcases c frames with ⟨r, after⟩
  cases r <;> rfl

@[simp] theorem run_inFrame (c : Check α) (frames : Frames) :
    (inFrame c).run frames = ((c.run (.empty :: frames)).1, (c.run (.empty :: frames)).2.tail) :=
  rfl

@[simp] theorem run_isolated (f : Frame) (c : Check α) (frames : Frames) :
    (isolated f c).run frames = ((c.run [f]).1, frames) := rfl

end Check

/-- A type parameter in scope stands for a type that is not known. -/
def Frames.typeParam (frames : Frames) (span : Span) (name : String) : Result Ty :=
  if frames.hasTypeParam name then .ok .wildcard
  else .error (.unresolvedName .typeParameter name span)

/-- The bare name of a path that was bound to nothing, whatever its arguments. -/
def Path.unboundName? (p : Path) : Option String :=
  if p.binding = .unbound then p.soleName? else none

section
variable (env : Env) (frames : Frames) (span : Span)

mutual

/-- The type with item aliases expanded and the aliases of enclosing blocks put in. -/
def resolveType : Ty → Result Ty
  | .path ⟨absolute, segments, binding⟩ => do
    let segments ← resolveSegments segments
    let p : Path := ⟨absolute, segments, binding⟩
    match binding with
    | .typeAlias _ => env.symbols.aliases.expand span (.path p)
    | _ =>
      match p.unboundName? with
      | none => return .path p
      | some name =>
        match frames.alias? name with
        | some t => return t
        | none => throw (.unresolvedName .localType name span)
  | .borrow kind inner => return .borrow kind (← resolveType inner)
  | .array inner size => return .array (← resolveType inner) size
  | .tuple items => return .tuple (← resolveTypes items)
  | .wildcard => return .wildcard
  | .unit => return .unit
  | .primitive scalar => return .primitive scalar
  | .generic name => return .generic name

def resolveTypes : List Ty → Result (List Ty)
  | [] => return []
  | t :: ts => return (← resolveType t) :: (← resolveTypes ts)

def resolveSegments : List Segment → Result (List Segment)
  | [] => return []
  | ⟨name, args⟩ :: rest => return ⟨name, ← resolveTypes args⟩ :: (← resolveSegments rest)

end

end

namespace Check

def resolveType (env : Env) (span : Span) (t : Ty) : Check Ty := fun frames =>
  (BorrowLang.resolveType env frames span t, frames)

/-- The name that a bound has to find among the type parameters. -/
def boundName? : Bound → Option (String × Span)
  | .isTrait (.generic name) _ span => some (name, span)
  | .isTrait (.path p) _ span => p.unboundName?.map (·, span)
  | _ => none

def requireTypeParams : List Bound → Check Unit
  | [] => pure ()
  | b :: bs => do
    match boundName? b with
    | none => pure ()
    | some (name, span) => ofResult (discard ((← get).typeParam span name))
    requireTypeParams bs

/-- Parameters are entered before their bounds are looked at. -/
def declareParams (params : Params) (span : Span) : Check Unit := do
  modifyFrame span fun f => { f with typeParams := params.names.reverse ++ f.typeParams }
  requireTypeParams params.bounds

end Check
end BorrowLang
