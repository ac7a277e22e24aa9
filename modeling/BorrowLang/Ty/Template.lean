import BorrowLang.Ty.Display
import BorrowLang.Ty.Merge

/-! Matching a template, a type that may mention parameters, against a type. -/
namespace BorrowLang
namespace Ty

/-- The parameters met, each with the type found in its place, in order of occurrence. -/
abbrev Matches := List (String × Ty)

mutual

/-- A wildcard matches anything and an omitted argument list or size leaves the other side
unexamined; a parameter against a bare wildcard records nothing. -/
def matchTemplate? : Ty → Ty → Option Matches
  | generic _, wildcard => some []
  | generic name, found => some [(name, found)]
  | _, wildcard => some []
  | wildcard, _ => some []
  | unit, unit => some []
  | primitive p, primitive q => if p = q then some [] else none
  | borrow k a, borrow l b => if k = l then matchTemplate? a b else none
  | path ⟨a, segments, _⟩, path ⟨b, others, _⟩ =>
    if a = b then matchSegments? segments others else none
  | tuple ts, tuple us => matchAll? ts us
  | array a m, array b n => if m = none ∨ n = none ∨ m = n then matchTemplate? a b else none
  | _, _ => none

def matchAll? : List Ty → List Ty → Option Matches
  | [], [] => some []
  | t :: ts, u :: us =>
    match matchTemplate? t u, matchAll? ts us with
    | some here, some later => some (here ++ later)
    | _, _ => none
  | _, _ => none

def matchSegments? : List Segment → List Segment → Option Matches
  | [], [] => some []
  | ⟨m, args⟩ :: rest, ⟨n, others⟩ :: rest' =>
    if m = n then
      let here := if args.isEmpty || others.isEmpty then some [] else matchAll? args others
      match here, matchSegments? rest rest' with
      | some here, some later => some (here ++ later)
      | _, _ => none
    else none
  | _, _ => none

end

def matchTemplate (template found : Ty) : Except MergeConflict Matches :=
  match template.matchTemplate? found with
  | some bindings => .ok bindings
  | none => .error ⟨template.display, found.display⟩

theorem matchTemplate_eq_ok_iff {template found : Ty} {bindings : Matches} :
    template.matchTemplate found = .ok bindings ↔
      template.matchTemplate? found = some bindings := by
  unfold matchTemplate
  split <;> simp_all

example : (tuple [generic "T", generic "U"]).matchTemplate? (tuple [unit, wildcard]) =
    some [("T", unit)] := rfl
example : unit.matchTemplate? (generic "T") = none := rfl

end Ty
end BorrowLang
