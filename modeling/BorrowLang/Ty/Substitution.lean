import BorrowLang.Ty.Basic

/-! Replacing generic parameters by types. -/
namespace BorrowLang

/-- Types for parameter names; the first entry of a name counts. -/
abbrev Substitution := List (String × Ty)

namespace Substitution

def get? (s : Substitution) (name : String) : Option Ty := s.lookup name

/-- Each parameter with the argument at its place, a wildcard where there is none. -/
def pad : List String → List Ty → Substitution
  | [], _ => []
  | name :: names, [] => (name, .wildcard) :: pad names []
  | name :: names, t :: ts => (name, t) :: pad names ts

/-- Parameters paired with arguments; a name that is listed twice has its last argument. -/
def ofArgs (names : List String) (args : List Ty) : Substitution := (pad names args).reverse

theorem map_fst_pad (names : List String) (args : List Ty) :
    (pad names args).map (·.1) = names := by
  fun_induction pad names args <;> simp_all

end Substitution

namespace Ty

mutual

/-- Parameters that the substitution does not name stay. -/
def substitute (s : Substitution) : Ty → Ty
  | generic name => (s.get? name).getD (generic name)
  | borrow kind inner => borrow kind (substitute s inner)
  | array inner size => array (substitute s inner) size
  | path ⟨absolute, segments, binding⟩ => path ⟨absolute, substituteSegments s segments, binding⟩
  | tuple items => tuple (substituteAll s items)
  | wildcard => wildcard
  | unit => unit
  | primitive scalar => primitive scalar

def substituteAll (s : Substitution) : List Ty → List Ty
  | [] => []
  | t :: ts => substitute s t :: substituteAll s ts

def substituteSegments (s : Substitution) : List Segment → List Segment
  | [] => []
  | ⟨name, args⟩ :: rest => ⟨name, substituteAll s args⟩ :: substituteSegments s rest

end

@[simp] theorem substituteAll_eq_map (s : Substitution) (ts : List Ty) :
    substituteAll s ts = ts.map (substitute s) := by
  induction ts with
  | nil => rfl
  | cons t ts ih => simp [substituteAll, ih]

variable {m : Type → Type} [Monad m]

mutual

/-- Every parameter is asked for where it occurs, from left to right, and what `ask` answers is
not searched again. -/
def resolveArgs (ask : String → m Ty) : Ty → m Ty
  | generic name => ask name
  | borrow kind inner => return borrow kind (← resolveArgs ask inner)
  | array inner size => return array (← resolveArgs ask inner) size
  | path ⟨absolute, segments, binding⟩ =>
    return path ⟨absolute, ← resolveArgsSegments ask segments, binding⟩
  | tuple items => return tuple (← resolveArgsAll ask items)
  | wildcard => return wildcard
  | unit => return unit
  | primitive scalar => return primitive scalar

def resolveArgsAll (ask : String → m Ty) : List Ty → m (List Ty)
  | [] => return []
  | t :: ts => return (← resolveArgs ask t) :: (← resolveArgsAll ask ts)

def resolveArgsSegments (ask : String → m Ty) : List Segment → m (List Segment)
  | [] => return []
  | ⟨name, args⟩ :: rest =>
    return ⟨name, ← resolveArgsAll ask args⟩ :: (← resolveArgsSegments ask rest)

end

end Ty
end BorrowLang
