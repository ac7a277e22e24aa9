import BorrowLang.Ty.Template

/-!
Reasons for refusing a program or a text: what they mark, how they are worded and what is reported
of them. How a report is laid out, and whether the name of its source is shown, is left to the
handler that prints it.
-/
namespace BorrowLang

/-- The bytes from `start` up to `stop`; both are zero where a construct has no place in the text. -/
structure Span where
  start : Nat
  stop : Nat
deriving DecidableEq, Inhabited

namespace Span

/-- A range whose end lies before its start is empty. -/
def length (s : Span) : Nat := s.stop - s.start

def isEmpty (s : Span) : Bool := s.length == 0

example : (Span.mk 9 3).length = 0 := by decide

end Span

/-! ### Errors -/

/-- Where a name was looked for. -/
inductive NameKind
  | localVariable
  | localType
  | typeParameter
  | item
deriving DecidableEq

def NameKind.display : NameKind → String
  | localVariable => "local variable"
  | localType => "type"
  | typeParameter => "type parameter"
  | item => "item"

inductive Error
  | unresolvedName (kind : NameKind) (name : String) (span : Span)
  | typeMismatch (expected found : String) (span : Span)
  | arityMismatch (message : String) (span : Span)
  | unresolvedMember (message : String) (span : Span)
  | unsupported (construct : String) (span : Span)
  | invariantViolation (message : String) (span : Span)
deriving DecidableEq

namespace Error

def span : Error → Span
  | unresolvedName _ _ span | typeMismatch _ _ span | arityMismatch _ span
  | unresolvedMember _ span | unsupported _ span | invariantViolation _ span => span

def message : Error → String
  | unresolvedName kind name _ => "cannot find " ++ kind.display ++ " `" ++ name ++ "` in this scope"
  | typeMismatch expected found _ =>
    "mismatched types: expected `" ++ expected ++ "`, found `" ++ found ++ "`"
  | arityMismatch message _ => message
  | unresolvedMember message _ => message
  | unsupported construct _ => construct ++ " is not supported yet"
  | invariantViolation message _ => "internal compiler error: " ++ message

/-- What stands at the marked place. -/
def label : Error → String
  | unresolvedName .. | unresolvedMember .. => "not found"
  | typeMismatch expected _ _ => "expected `" ++ expected ++ "`"
  | arityMismatch .. => "wrong number of parameters"
  | unsupported .. => "unsupported here"
  | invariantViolation .. => "reached here"

def code : Error → String
  | unresolvedName .. => "prime::sema::unresolved_name"
  | typeMismatch .. => "prime::sema::type_mismatch"
  | arityMismatch .. => "prime::sema::arity_mismatch"
  | unresolvedMember .. => "prime::sema::unresolved_member"
  | unsupported .. => "prime::sema::unsupported"
  | invariantViolation .. => "prime::sema::invariant"

def help? : Error → Option String
  | invariantViolation .. =>
    some "this is a compiler bug: an expression context was not handled"
  | _ => none

end Error

abbrev Result (α : Type) := Except Error α

/-- The type `t` with what `u` knows put in. -/
def Ty.mergeAt (t u : Ty) (span : Span) : Result Ty :=
  match t.merge u with
  | .ok v => .ok v
  | .error conflict => .error (.typeMismatch conflict.expected conflict.found span)

/-- The template matched against `found`. -/
def Ty.matchTemplateAt (template found : Ty) (span : Span) : Result (List (String × Ty)) :=
  match template.matchTemplate found with
  | .ok bindings => .ok bindings
  | .error conflict => .error (.typeMismatch conflict.expected conflict.found span)

/-- A text that is not in the form asked for. -/
structure SyntaxError where
  message : String
  label : String
  span : Span
  help? : Option String
deriving DecidableEq

/-! ### Reports -/

structure Label where
  text : String
  span : Span
deriving DecidableEq

def Error.marked (e : Error) : Label := ⟨e.label, e.span⟩

def SyntaxError.marked (e : SyntaxError) : Label := ⟨e.label, e.span⟩

/-- An error together with the named text that its label points into. -/
structure Report where
  message : String
  code? : Option String
  help? : Option String
  filename : String
  source : String
  label : Label
deriving DecidableEq

def Error.report (e : Error) (name source : String) : Report :=
  ⟨e.message, some e.code, e.help?, name, source, e.marked⟩

/-- A text that is refused has no code. -/
def SyntaxError.report (e : SyntaxError) (name source : String) : Report :=
  ⟨e.message, none, e.help?, name, source, e.marked⟩

end BorrowLang
