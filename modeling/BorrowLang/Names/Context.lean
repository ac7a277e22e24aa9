import BorrowLang.Report
import BorrowLang.Names.Index

/-!
Binding of paths and types. A path that names an item becomes absolute and is bound to it; a bare
name of a type parameter becomes that parameter.
-/
namespace BorrowLang.Names

/-- What is known at a place of the program. -/
structure Context where
  index : Index
  /-- The names of the enclosing module. -/
  modulePath : List String
  /-- The imports of the enclosing module with the names they stand for, latest first. -/
  imports : List (String × List String)
  /-- The type parameters of the enclosing items. -/
  generics : List String
  /-- What `Self` stands for. -/
  selfType? : Option Ty

namespace Context

def withGenerics (cx : Context) (names : List String) : Context :=
  { cx with generics := names ++ cx.generics }

def withSelf (cx : Context) (t : Ty) : Context := { cx with selfType? := some t }

/-- Inside the nested module `name`, before its imports. -/
def enter (cx : Context) (name : String) : Context :=
  { cx with modulePath := cx.modulePath ++ [name], imports := [] }

/-- The item that the names reach from a module, with the names of that module. -/
def findFrom? (cx : Context) (parents names : List String) : Option (List String × Binding) :=
  (cx.index.binding? (parents ++ names)).map (parents, ·)

/-- The item reached through an import of the first name. -/
def findImported? (cx : Context) : List String → Option (List String × Binding)
  | [] => none
  | first :: rest =>
    match cx.imports.lookup first with
    | none => none
    | some target => (cx.index.binding? (target ++ rest)).map (target.dropLast, ·)

/-- The item a path names, with the names that make the path absolute. An import wins over the
enclosing module, and that over the root. -/
def find? (cx : Context) (p : Path) : Option (List String × Binding) :=
  if p.absolute then cx.findFrom? [] p.names
  else match p.names with
    | [] => none
    | names => cx.findImported? names <|> cx.findFrom? cx.modulePath names <|> cx.findFrom? [] names

end Context

/-- The path with the parents put in front, as the name of what it is bound to. -/
def absolutize (p : Path) (parents : List String) (binding : Binding) : Path :=
  ⟨true, (Path.ofNames true parents).segments ++ p.segments, binding⟩

/-- A type path whose arguments are bound. A bare name that nothing has is left for the aliases of
the enclosing blocks. -/
def bindTypePath (cx : Context) (span : Span) (p : Path) : Result Ty :=
  match p.bareName? with
  | some name =>
    if cx.generics.contains name then .ok (.generic name)
    else match cx.selfType?, name == "Self" with
      | some t, true => .ok t
      | _, _ =>
        match cx.find? p with
        | some (parents, binding) => .ok (.path (absolutize p parents binding))
        | none => .ok (.path p)
  | none =>
    match cx.find? p with
    | some (parents, binding) => .ok (.path (absolutize p parents binding))
    | none => .error (.unresolvedName .item p.key span)

mutual

/-- Arguments are bound before the path they belong to. -/
def bindType (cx : Context) (span : Span) : Ty → Result Ty
  | .path ⟨absolute, segments, binding⟩ => do
    let segments ← bindSegments cx span segments
    bindTypePath cx span ⟨absolute, segments, binding⟩
  | .borrow kind inner => return .borrow kind (← bindType cx span inner)
  | .array inner size => return .array (← bindType cx span inner) size
  | .tuple items => return .tuple (← bindTypes cx span items)
  | .wildcard => return .wildcard
  | .unit => return .unit
  | .primitive scalar => return .primitive scalar
  | .generic name => return .generic name

def bindTypes (cx : Context) (span : Span) : List Ty → Result (List Ty)
  | [] => return []
  | t :: ts => return (← bindType cx span t) :: (← bindTypes cx span ts)

def bindSegments (cx : Context) (span : Span) : List Segment → Result (List Segment)
  | [] => return []
  | ⟨name, args⟩ :: rest => return ⟨name, ← bindTypes cx span args⟩ :: (← bindSegments cx span rest)

end

/-- A path that has to name an item. -/
def bindPath (cx : Context) (span : Span) (p : Path) : Result Path := do
  let segments ← bindSegments cx span p.segments
  let p : Path := ⟨p.absolute, segments, p.binding⟩
  match cx.find? p with
  | some (parents, binding) => return absolutize p parents binding
  | none => throw (.unresolvedName .item p.key span)

end BorrowLang.Names
