import Mathlib.Tactic.SplitIfs
import BorrowLang.Proofs.Places
import BorrowLang.Proofs.TypeProperties

/-! What the paths inside a type are bound to, through everything that makes types of types. -/
namespace BorrowLang
namespace Ty
variable {P : Binding → Prop}

/-- Every path in the type, at any depth, has a binding of the kind. -/
def AllBindings (P : Binding → Prop) (t : Ty) : Prop := ∀ p ∈ t.paths, P p.binding

theorem allBindings_wildcard : wildcard.AllBindings P := List.forall_mem_nil _

theorem allBindings_unit : unit.AllBindings P := List.forall_mem_nil _

theorem allBindings_primitive (p : Primitive) : (primitive p).AllBindings P := List.forall_mem_nil _

theorem allBindings_generic (name : String) : (generic name).AllBindings P := List.forall_mem_nil _

theorem allBindings_borrow {kind : BorrowKind} {t : Ty} :
    (borrow kind t).AllBindings P ↔ t.AllBindings P := Iff.rfl

theorem allBindings_array {t : Ty} {size : Option UInt64} :
    (array t size).AllBindings P ↔ t.AllBindings P := Iff.rfl

theorem forall_mem_pathsAll {Q : Path → Prop} {ts : List Ty} :
    (∀ p ∈ pathsAll ts, Q p) ↔ ∀ t ∈ ts, ∀ p ∈ t.paths, Q p := by
  simp only [mem_pathsAll]
  exact ⟨fun h t ht p hp => h p ⟨t, ht, hp⟩, fun h p ⟨t, ht, hp⟩ => h t ht p hp⟩

theorem allBindings_tuple {items : List Ty} :
    (tuple items).AllBindings P ↔ ∀ t ∈ items, t.AllBindings P := forall_mem_pathsAll

/-- The arguments of every segment. -/
def SegmentsBindings (P : Binding → Prop) (segments : List Segment) : Prop :=
  ∀ s ∈ segments, ∀ t ∈ s.args, t.AllBindings P

theorem forall_mem_pathsSegments {segments : List Segment} :
    (∀ p ∈ pathsSegments segments, P p.binding) ↔ SegmentsBindings P segments := by
  simp only [mem_pathsSegments]
  refine ⟨fun h s hs => forall_mem_pathsAll.mp fun p hp => h p ⟨s, hs, hp⟩, ?_⟩
  intro h p ⟨s, hs, hp⟩
  exact forall_mem_pathsAll.mpr (h s hs) p hp

theorem allBindings_path {p : Path} :
    (path p).AllBindings P ↔ P p.binding ∧ SegmentsBindings P p.segments := by
  rw [AllBindings, paths_path, List.forall_mem_cons, Path.argPaths, forall_mem_pathsSegments]

theorem segmentsBindings_nil : SegmentsBindings P [] := List.forall_mem_nil _

theorem segmentsBindings_cons {name : String} {args : List Ty} {rest : List Segment} :
    SegmentsBindings P (⟨name, args⟩ :: rest) ↔
      (∀ t ∈ args, t.AllBindings P) ∧ SegmentsBindings P rest := List.forall_mem_cons

theorem compositional_allBindings (P : Binding → Prop) : Compositional P (AllBindings P) where
  wildcard := allBindings_wildcard
  unit := allBindings_unit
  primitive := allBindings_primitive
  borrow := allBindings_borrow
  array := allBindings_array
  tuple := allBindings_tuple
  path := allBindings_path

/-! ### Parts -/

theorem AllBindings.pointee? {t inner : Ty} (h : t.AllBindings P) (hi : t.pointee? = some inner) :
    inner.AllBindings P := (compositional_allBindings P).pointee? h hi

theorem AllBindings.stripped {t : Ty} (h : t.AllBindings P) : t.stripped.AllBindings P :=
  (compositional_allBindings P).stripped h

theorem AllBindings.derefChain {t : Ty} (h : t.AllBindings P) :
    ∀ u ∈ t.derefChain, u.AllBindings P := by
  fun_induction Ty.derefChain t with
  | case1 _ inner ih => exact List.forall_mem_cons.mpr ⟨h, ih h⟩
  | case2 t _ => exact List.forall_mem_singleton.mpr h

end Ty

theorem Path.lastArgs_allBindings {P : Binding → Prop} {p : Path}
    (h : Ty.SegmentsBindings P p.segments) : ∀ t ∈ p.lastArgs, t.AllBindings P :=
  Path.ArgsHave.lastArgs h

namespace Ty
variable {P : Binding → Prop}

/-! ### Substitution -/

theorem allBindings_get? {s : Substitution} (h : ∀ e ∈ s, e.2.AllBindings P) (name : String) :
    ((s.get? name).getD (generic name)).AllBindings P := by
  cases hg : s.get? name with
  | none => exact allBindings_generic name
  | some t => exact h _ (mem_of_lookup_eq_some hg)

theorem AllBindings.substitute {s : Substitution} (hs : ∀ e ∈ s, e.2.AllBindings P) {t : Ty}
    (ht : t.AllBindings P) : (t.substitute s).AllBindings P :=
  (compositional_allBindings P).substitute (compositional_allBindings P)
    (fun name _ => allBindings_get? hs name) ht

/-! ### Merging and matching -/

theorem AllBindings.merge? {t u v : Ty} (ht : t.AllBindings P) (hu : u.AllBindings P)
    (h : t.merge? u = some v) : v.AllBindings P := (compositional_allBindings P).merge? ht hu h

theorem AllBindings.matchTemplate? {t u : Ty} {found : Matches} (hu : u.AllBindings P)
    (h : t.matchTemplate? u = some found) : ∀ m ∈ found, m.2.AllBindings P :=
  (compositional_allBindings P).matchTemplate? hu h

end Ty
end BorrowLang
