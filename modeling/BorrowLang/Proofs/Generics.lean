import BorrowLang.Ty.Substitution

/-! The type parameters that a type mentions, and what a substitution makes of them. -/
namespace BorrowLang
namespace Ty

mutual

/-- The parameters at every depth, from left to right. -/
def generics : Ty → List String
  | wildcard | unit | primitive _ => []
  | generic name => [name]
  | borrow _ inner | array inner _ => inner.generics
  | path ⟨_, segments, _⟩ => genericsSegments segments
  | tuple items => genericsAll items

def genericsAll : List Ty → List String
  | [] => []
  | t :: ts => t.generics ++ genericsAll ts

def genericsSegments : List Segment → List String
  | [] => []
  | ⟨_, args⟩ :: rest => genericsAll args ++ genericsSegments rest

end

theorem mem_genericsAll {name : String} {ts : List Ty} :
    name ∈ genericsAll ts ↔ ∃ t ∈ ts, name ∈ t.generics := by
  induction ts with
  | nil => simp [genericsAll]
  | cons t ts ih => simp [genericsAll, ih]

theorem mem_genericsSegments {name : String} {segments : List Segment} :
    name ∈ genericsSegments segments ↔ ∃ s ∈ segments, name ∈ genericsAll s.args := by
  induction segments with
  | nil => simp [genericsSegments]
  | cons s rest ih =>
    obtain ⟨_, args⟩ := s
    simp [genericsSegments, ih]

end Ty

namespace Substitution

/-- Every parameter of the type stands for something. -/
def Defines (s : Substitution) (t : Ty) : Prop := ∀ name ∈ t.generics, ∃ u, s.get? name = some u

@[simp] theorem get?_nil (name : String) : get? [] name = none := rfl

theorem get?_cons (s : Substitution) (name n : String) (t : Ty) :
    get? ((n, t) :: s) name = if name = n then some t else s.get? name := by
  by_cases h : name = n
  · simp [get?, h]
  · simp [get?, List.lookup_cons, beq_eq_false_iff_ne.mpr h, h]

theorem get?_append (s s' : Substitution) (name : String) :
    get? (s ++ s') name = (s.get? name).or (s'.get? name) := by
  induction s with
  | nil => rfl
  | cons entry s ih =>
    obtain ⟨n, t⟩ := entry
    rw [List.cons_append, get?_cons, get?_cons, ih]
    split <;> rfl

end Substitution
end BorrowLang
