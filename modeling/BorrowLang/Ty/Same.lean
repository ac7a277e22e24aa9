import BorrowLang.Path

/-! Equality of types, in which it does not matter what a path was found to name. -/
namespace BorrowLang
namespace Ty

mutual

/-- Equal up to the bindings of paths. -/
def same : Ty → Ty → Bool
  | wildcard, wildcard | unit, unit => true
  | primitive p, primitive q => p == q
  | generic m, generic n => m == n
  | borrow k a, borrow l b => k == l && same a b
  | path ⟨a, segments, _⟩, path ⟨b, others, _⟩ => a == b && sameSegments segments others
  | tuple ts, tuple us => sameAll ts us
  | array a m, array b n => m == n && same a b
  | _, _ => false

def sameAll : List Ty → List Ty → Bool
  | [], [] => true
  | t :: ts, u :: us => same t u && sameAll ts us
  | _, _ => false

def sameSegments : List Segment → List Segment → Bool
  | [], [] => true
  | ⟨m, args⟩ :: rest, ⟨n, others⟩ :: rest' =>
    m == n && sameAll args others && sameSegments rest rest'
  | _, _ => false

end

mutual

@[simp] theorem same_refl : ∀ t : Ty, t.same t = true
  | wildcard | unit => rfl
  | primitive _ | generic _ => by simp [same]
  | borrow _ inner | array inner _ => by simp [same, same_refl inner]
  | path ⟨_, segments, _⟩ => by simp [same, sameSegments_refl segments]
  | tuple items => by simp [same, sameAll_refl items]

@[simp] theorem sameAll_refl : ∀ ts : List Ty, sameAll ts ts = true
  | [] => rfl
  | t :: ts => by simp [sameAll, same_refl t, sameAll_refl ts]

@[simp] theorem sameSegments_refl : ∀ segments : List Segment,
    sameSegments segments segments = true
  | [] => rfl
  | ⟨_, args⟩ :: rest => by simp [sameSegments, sameAll_refl args, sameSegments_refl rest]

end

end Ty

def Path.same (p q : Path) : Bool := (Ty.path p).same (.path q)

end BorrowLang
