import BorrowLang.Ty.Display

/-!
Merging of partial types: each side fills in what the other does not know, and two types that
are known and differ conflict.
-/
namespace BorrowLang

/-- Two types that do not merge, as they are written. -/
structure MergeConflict where
  expected : String
  found : String
deriving DecidableEq

namespace Ty

/-- Of two array sizes the known one, unless they differ. -/
def mergeSize? : Option UInt64 → Option UInt64 → Option (Option UInt64)
  | some m, some n => if m = n then some (some m) else none
  | some m, none => some (some m)
  | none, size => some size

mutual

/-- The binding of a path is that of the left side, except inside what the right side fills in. -/
def merge? : Ty → Ty → Option Ty
  | a, wildcard => some a
  | wildcard, b => some b
  | unit, unit => some unit
  | primitive p, primitive q => if p = q then some (primitive p) else none
  | generic m, generic n => if m = n then some (generic m) else none
  | borrow k a, borrow l b => if k = l then (merge? a b).map (borrow k) else none
  | path ⟨a, segments, binding⟩, path ⟨b, others, _⟩ =>
    if a = b then (mergeSegments? segments others).map (fun s => path ⟨a, s, binding⟩) else none
  | tuple ts, tuple us => (mergeAll? ts us).map tuple
  | array a m, array b n =>
    match mergeSize? m n, merge? a b with
    | some size, some inner => some (array inner size)
    | _, _ => none
  | _, _ => none

/-- Position by position; lists of different lengths do not merge. -/
def mergeAll? : List Ty → List Ty → Option (List Ty)
  | [], [] => some []
  | t :: ts, u :: us =>
    match merge? t u, mergeAll? ts us with
    | some v, some vs => some (v :: vs)
    | _, _ => none
  | _, _ => none

/-- Segments of the same names, the arguments of one side standing in where the other has none. -/
def mergeSegments? : List Segment → List Segment → Option (List Segment)
  | [], [] => some []
  | ⟨m, args⟩ :: rest, ⟨n, others⟩ :: rest' =>
    if m = n then
      let merged := if args.isEmpty then some others
        else if others.isEmpty then some args
        else mergeAll? args others
      match merged, mergeSegments? rest rest' with
      | some merged, some rest => some (⟨m, merged⟩ :: rest)
      | _, _ => none
    else none
  | _, _ => none

end

def merge (t u : Ty) : Except MergeConflict Ty :=
  match t.merge? u with
  | some v => .ok v
  | none => .error ⟨t.display, u.display⟩

@[simp] theorem merge?_wildcard (t : Ty) : t.merge? wildcard = some t := by
  cases t <;> simp [merge?]

@[simp] theorem wildcard_merge? (t : Ty) : wildcard.merge? t = some t := by
  cases t <;> simp [merge?]

theorem merge_eq_ok_iff {t u v : Ty} : t.merge u = .ok v ↔ t.merge? u = some v := by
  unfold merge
  split <;> simp_all

example : (array (primitive .u8) none).merge? (array wildcard (some 4)) =
    some (array (primitive .u8) (some 4)) := rfl
example : (tuple [unit]).merge? (tuple []) = none := rfl

end Ty
end BorrowLang
