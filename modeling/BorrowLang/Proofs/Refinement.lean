import Mathlib.Order.Bounds.Basic
import BorrowLang.Ty.Same

/-!
The order of partial types by what is known of them. Types that refine each other are the same up
to the bindings of paths.
-/
namespace BorrowLang
namespace Ty

mutual

/-- The second type is the first with wildcards replaced by types, omitted arguments given and
omitted array sizes given. What paths are bound to does not matter. -/
inductive Refines : Ty → Ty → Prop
  | wildcard (t : Ty) : Refines wildcard t
  | unit : Refines unit unit
  | primitive (p : Primitive) : Refines (primitive p) (primitive p)
  | generic (name : String) : Refines (generic name) (generic name)
  | borrow {kind : BorrowKind} {t u : Ty} : Refines t u → Refines (borrow kind t) (borrow kind u)
  | path {absolute : Bool} {segments others : List Segment} {b c : Binding} :
    SegmentsRefine segments others → Refines (path ⟨absolute, segments, b⟩) (path ⟨absolute, others, c⟩)
  | tuple {ts us : List Ty} : AllRefine ts us → Refines (tuple ts) (tuple us)
  | array {t u : Ty} {m n : Option UInt64} :
    Refines t u → m = none ∨ m = n → Refines (array t m) (array u n)

inductive AllRefine : List Ty → List Ty → Prop
  | nil : AllRefine [] []
  | cons {t u : Ty} {ts us : List Ty} : Refines t u → AllRefine ts us → AllRefine (t :: ts) (u :: us)

inductive SegmentsRefine : List Segment → List Segment → Prop
  | nil : SegmentsRefine [] []
  | omitted {name : String} {args : List Ty} {rest others : List Segment} :
    SegmentsRefine rest others → SegmentsRefine (⟨name, []⟩ :: rest) (⟨name, args⟩ :: others)
  | given {name : String} {args found : List Ty} {rest others : List Segment} :
    AllRefine args found → SegmentsRefine rest others →
      SegmentsRefine (⟨name, args⟩ :: rest) (⟨name, found⟩ :: others)

end

mutual

theorem Refines.refl : ∀ t : Ty, Refines t t
  | wildcard => .wildcard _
  | unit => .unit
  | primitive p => .primitive p
  | generic name => .generic name
  | borrow _ inner => .borrow (Refines.refl inner)
  | path ⟨_, segments, _⟩ => .path (SegmentsRefine.refl segments)
  | tuple items => .tuple (AllRefine.refl items)
  | array inner _ => .array (Refines.refl inner) (.inr rfl)

theorem AllRefine.refl : ∀ ts : List Ty, AllRefine ts ts
  | [] => .nil
  | t :: ts => .cons (Refines.refl t) (AllRefine.refl ts)

theorem SegmentsRefine.refl : ∀ segments : List Segment, SegmentsRefine segments segments
  | [] => .nil
  | ⟨_, args⟩ :: rest => .given (AllRefine.refl args) (SegmentsRefine.refl rest)

end

mutual

theorem Refines.trans : ∀ {t u v : Ty}, Refines t u → Refines u v → Refines t v
  | _, _, v, .wildcard _, _ => .wildcard v
  | _, _, _, .unit, .unit => .unit
  | _, _, _, .primitive p, .primitive _ => .primitive p
  | _, _, _, .generic name, .generic _ => .generic name
  | _, _, _, .borrow h, .borrow k => .borrow (h.trans k)
  | _, _, _, .path h, .path k => .path (h.trans k)
  | _, _, _, .tuple h, .tuple k => .tuple (h.trans k)
  | _, _, _, .array h (.inl hm), .array k _ => .array (h.trans k) (.inl hm)
  | _, _, _, .array h (.inr rfl), .array k hn => .array (h.trans k) hn

theorem AllRefine.trans : ∀ {ts us vs : List Ty},
    AllRefine ts us → AllRefine us vs → AllRefine ts vs
  | _, _, _, .nil, .nil => .nil
  | _, _, _, .cons h hs, .cons k ks => .cons (h.trans k) (hs.trans ks)

theorem SegmentsRefine.trans : ∀ {ss ss' ss'' : List Segment},
    SegmentsRefine ss ss' → SegmentsRefine ss' ss'' → SegmentsRefine ss ss''
  | _, _, _, .nil, .nil => .nil
  | _, _, _, .omitted hs, .omitted ks => .omitted (hs.trans ks)
  | _, _, _, .omitted hs, .given _ ks => .omitted (hs.trans ks)
  -- No arguments are refined by none only, so both may be omitted again.
  | _, _, _, .given .nil hs, .omitted ks => .omitted (hs.trans ks)
  | _, _, _, .given h hs, .given k ks => .given (h.trans k) (hs.trans ks)

end

instance : Preorder Ty where
  le := Refines
  le_refl := Refines.refl
  le_trans _ _ _ := Refines.trans

theorem size_eq {m n : Option UInt64} (hm : m = none ∨ m = n) (hn : n = none ∨ n = m) : m = n := by
  rcases hm with rfl | rfl
  · exact (hn.elim id id).symm
  · rfl

mutual

theorem Refines.same : ∀ {t u : Ty}, Refines t u → Refines u t → t.same u = true
  | _, _, .wildcard _, .wildcard _ => rfl
  | _, _, .unit, .unit => rfl
  | _, _, .primitive _, .primitive _ => by simp [Ty.same]
  | _, _, .generic _, .generic _ => by simp [Ty.same]
  | _, _, .borrow h, .borrow k => by simp [Ty.same, h.same k]
  | _, _, .path h, .path k => by simp [Ty.same, h.same k]
  | _, _, .tuple h, .tuple k => by simp [Ty.same, h.same k]
  | _, _, .array h hm, .array k hn => by simp [Ty.same, h.same k, size_eq hm hn]

theorem AllRefine.same : ∀ {ts us : List Ty},
    AllRefine ts us → AllRefine us ts → sameAll ts us = true
  | _, _, .nil, .nil => rfl
  | _, _, .cons h hs, .cons k ks => by simp [sameAll, h.same k, hs.same ks]

theorem SegmentsRefine.same : ∀ {ss ss' : List Segment},
    SegmentsRefine ss ss' → SegmentsRefine ss' ss → sameSegments ss ss' = true
  | _, _, .nil, .nil => rfl
  | _, _, .omitted hs, .omitted ks => by simp [sameSegments, hs.same ks]
  | _, _, .omitted hs, .given .nil ks => by simp [sameSegments, hs.same ks]
  | _, _, .given .nil hs, .omitted ks => by simp [sameSegments, hs.same ks]
  | _, _, .given h hs, .given k ks => by simp [sameSegments, h.same k, hs.same ks]

end

/-- Antisymmetry, up to what paths are bound to. -/
theorem same_of_le_of_le {t u : Ty} (h : t ≤ u) (k : u ≤ t) : t.same u = true := Refines.same h k

theorem wildcard_le (t : Ty) : wildcard ≤ t := Refines.wildcard t

theorem isWildcard_iff {t : Ty} : t.isWildcard = true ↔ t = wildcard := by
  cases t <;> simp [isWildcard]

theorem unit_le_iff {t : Ty} : unit ≤ t ↔ t = unit := by
  constructor
  · rintro ⟨⟩
    rfl
  · rintro rfl
    exact le_rfl

end Ty
end BorrowLang
