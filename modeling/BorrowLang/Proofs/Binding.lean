import Mathlib.Tactic.SplitIfs
import BorrowLang.Names.Item
import BorrowLang.Proofs.Denotation
import BorrowLang.Proofs.Places

/-!
What the binding of names makes of a written type or path: what a bare name stands for in its scope,
and for the rest the absolute path of an item.
-/
namespace BorrowLang
namespace Ty

mutual

/-- What a written type becomes where the scope is what the second type is written in. -/
inductive BindsTo (scope : Scope) : Ty → Ty → Prop
  | wildcard : BindsTo scope wildcard wildcard
  | unit : BindsTo scope unit unit
  | primitive (p : Primitive) : BindsTo scope (primitive p) (primitive p)
  | generic (name : String) : BindsTo scope (generic name) (generic name)
  | borrow {kind : BorrowKind} {t u : Ty} : BindsTo scope t u →
    BindsTo scope (borrow kind t) (borrow kind u)
  | array {t u : Ty} {size : Option UInt64} : BindsTo scope t u →
    BindsTo scope (array t size) (array u size)
  | tuple {ts us : List Ty} : AllBind scope ts us → BindsTo scope (tuple ts) (tuple us)
  | param {p : Path} {name : String} : p.bareName? = some name → name ∈ scope.generics →
    BindsTo scope (path p) (generic name)
  | selfType {p : Path} {t : Ty} : p.bareName? = some "Self" → "Self" ∉ scope.generics →
    scope.selfType? = some t → BindsTo scope (path p) t
  | item {p q : Path} : scope.Leaves p → PathBinds scope p q → BindsTo scope (path p) (path q)
  /-- A bare name that nothing has may be an alias of a block around it. -/
  | alias {p : Path} {name : String} : p.bareName? = some name → scope.Leaves p →
    BindsTo scope (path p) (path p)

/-- The path gets names without arguments in front, and its own segments have theirs bound. -/
inductive PathBinds (scope : Scope) : Path → Path → Prop
  | mk {absolute : Bool} {segments bound : List Segment} {b : Binding} (parents : List String)
    (binding : Binding) : SegmentsBind scope segments bound →
    PathBinds scope ⟨absolute, segments, b⟩ ⟨true, parents.map (⟨·, []⟩) ++ bound, binding⟩

inductive AllBind (scope : Scope) : List Ty → List Ty → Prop
  | nil : AllBind scope [] []
  | cons {t u : Ty} {ts us : List Ty} : BindsTo scope t u → AllBind scope ts us →
    AllBind scope (t :: ts) (u :: us)

inductive SegmentsBind (scope : Scope) : List Segment → List Segment → Prop
  | nil : SegmentsBind scope [] []
  | cons {name : String} {args found : List Ty} {rest others : List Segment} :
    AllBind scope args found → SegmentsBind scope rest others →
    SegmentsBind scope (⟨name, args⟩ :: rest) (⟨name, found⟩ :: others)

end

variable {scope : Scope}

theorem SegmentsBind.names {segments bound : List Segment} (h : SegmentsBind scope segments bound) :
    bound.map (·.name) = segments.map (·.name) := by
  induction segments generalizing bound with
  | nil =>
    cases h
    rfl
  | cons s rest ih =>
    cases h with
    | cons _ h => exact congrArg (_ :: ·) (ih h)

/-- The bound path ends in the names that are written. -/
theorem PathBinds.names {p q : Path} (h : PathBinds scope p q) :
    q.absolute = true ∧ p.names <:+ q.names := by
  cases h with
  | mk parents binding h =>
    refine ⟨rfl, parents, ?_⟩
    simp [Path.names, h.names, Function.comp_def]

/-- Binding the arguments of a path makes no bare name and changes none. -/
theorem SegmentsBind.bareName?_eq {absolute : Bool} {segments bound : List Segment} {b : Binding}
    (h : SegmentsBind scope segments bound) :
    Path.bareName? ⟨absolute, bound, b⟩ = Path.bareName? ⟨absolute, segments, b⟩ := by
  cases absolute with
  | true => rfl
  | false =>
    cases h with
    | nil => rfl
    | cons hargs hrest =>
      cases hrest with
      | nil =>
        cases hargs <;> rfl
      | cons hargs' _ => cases hargs <;> cases hargs' <;> rfl

theorem SegmentsBind.eq_of_bareName? {absolute : Bool} {segments bound : List Segment} {b : Binding}
    (h : SegmentsBind scope segments bound) {name : String}
    (hn : Path.bareName? ⟨absolute, segments, b⟩ = some name) : bound = segments := by
  have hbound := h.bareName?_eq.trans hn
  exact ((Path.bareName?_eq_some_iff _ name).mp hbound).2.trans
    ((Path.bareName?_eq_some_iff _ name).mp hn).2.symm

end Ty

/-- An absolute path that names its item, or a bare name left for the blocks around it. -/
def Path.Settled (s : Symbols) (p : Path) : Prop :=
  p.Denotes s ∨ p.bareName?.isSome ∧ p.binding = .unbound

def Ty.Unbound (t : Ty) : Prop := ∀ p ∈ t.paths, p.binding = .unbound

def Ty.Settled (s : Symbols) (t : Ty) : Prop := ∀ p ∈ t.paths, p.Settled s

namespace Names

def Context.scope (cx : Context) : Scope := ⟨cx.generics, cx.selfType?⟩

/-- A context in which everything that can be found is among the symbols. -/
structure Context.Sound (cx : Context) (s : Symbols) : Prop where
  index : s.Covers cx.index.entries
  /-- An import is known by its last name. -/
  imports : ∀ i ∈ cx.imports, i.2.getLast? = some i.1
  selfType : ∀ t ∈ cx.selfType?, t.Settled s

/-- The names put in front take no arguments. -/
theorem argPaths_absolutize (p : Path) (parents : List String) (b : Binding) :
    (absolutize p parents b).argPaths = p.argPaths := by
  change Ty.pathsSegments ((Path.ofNames true parents).segments ++ p.segments) = _
  induction parents with
  | nil => rfl
  | cons name parents ih => exact ih

theorem bindTypePath_binds {cx : Context} {span : Span} {absolute : Bool}
    {segments bound : List Segment} {b : Binding} {u : Ty} (hs : Ty.SegmentsBind cx.scope segments bound)
    (hu : bindTypePath cx span ⟨absolute, bound, b⟩ = .ok u) :
    (Ty.path ⟨absolute, segments, b⟩).BindsTo cx.scope u := by
  have hbare : Path.bareName? ⟨absolute, bound, b⟩ = Path.bareName? ⟨absolute, segments, b⟩ :=
    hs.bareName?_eq
  have hitem {parents : List String} {binding : Binding}
      (hl : cx.scope.Leaves ⟨absolute, segments, b⟩) :
      (Ty.path ⟨absolute, segments, b⟩).BindsTo cx.scope
        (.path (absolutize ⟨absolute, bound, b⟩ parents binding)) :=
    .item hl (.mk parents binding hs)
  unfold bindTypePath at hu
  split at hu
  · next name hname =>
    rw [hbare] at hname
    split_ifs at hu with hg
    · cases hu
      exact .param hname (List.contains_iff_mem.mp hg)
    · have hfree : name ∉ cx.generics := fun hm => hg (List.contains_iff_mem.mpr hm)
      split at hu
      · next t hself hn =>
        cases hu
        obtain rfl : name = "Self" := beq_iff_eq.mp hn
        exact .selfType hname hfree hself
      · next hself =>
        have hl : cx.scope.Leaves ⟨absolute, segments, b⟩ := by
          intro other hother
          obtain rfl : name = other := Option.some.inj (hname.symm.trans hother)
          refine ⟨hfree, fun hn => Option.eq_none_iff_forall_ne_some.mpr fun t ht => ?_⟩
          exact hself t ht (beq_iff_eq.mpr hn)
        split at hu
        · cases hu
          exact hitem hl
        · cases hu
          rw [hs.eq_of_bareName? hname]
          exact .alias hname hl
  · next hname =>
    rw [hbare] at hname
    have hl : cx.scope.Leaves ⟨absolute, segments, b⟩ := by
      intro name hn
      rw [hname] at hn
      contradiction
    split at hu
    · cases hu
      exact hitem hl
    · contradiction

section
variable {cx : Context} (h : ∀ i ∈ cx.imports, i.2.getLast? = some i.1)
include h

theorem Context.binding?_of_findImported? {names parents : List String} {b : Binding}
    (hf : cx.findImported? names = some (parents, b)) :
    cx.index.binding? (parents ++ names) = some b := by
  unfold Context.findImported? at hf
  split at hf
  · contradiction
  · next first rest =>
    split at hf
    · contradiction
    · next target htarget =>
      simp only [Option.map_eq_some_iff, Prod.mk.injEq] at hf
      obtain ⟨_, hb, rfl, rfl⟩ := hf
      have hlast : target.getLast? = some first := h _ (mem_of_lookup_eq_some htarget)
      rw [← List.dropLast_append_getLast? _ hlast, List.append_assoc] at hb
      exact hb

theorem Context.binding?_of_find? {p : Path} {parents : List String} {b : Binding}
    (hf : cx.find? p = some (parents, b)) : cx.index.binding? (parents ++ p.names) = some b := by
  have hfrom {names : List String} {from_ : List String}
      (hf : cx.findFrom? from_ names = some (parents, b)) :
      cx.index.binding? (parents ++ names) = some b := by
    simp only [Context.findFrom?, Option.map_eq_some_iff, Prod.mk.injEq] at hf
    obtain ⟨_, hb, rfl, rfl⟩ := hf
    exact hb
  unfold Context.find? at hf
  split_ifs at hf
  · exact hfrom hf
  · split at hf
    · contradiction
    · next names _ =>
      simp only [Option.orElse_eq_orElse, Option.orElse_eq_or, Option.or_eq_some_iff] at hf
      rcases hf with hf | ⟨-, hf | ⟨-, hf⟩⟩
      · exact Context.binding?_of_findImported? h hf
      · exact hfrom hf
      · exact hfrom hf

end

theorem names_absolutize (p : Path) (parents : List String) (b : Binding) :
    (absolutize p parents b).names = parents ++ p.names := by
  simp [absolutize, Path.names, Path.ofNames, Function.comp_def]

section
variable {cx : Context} {s : Symbols} (h : cx.Sound s)
include h

theorem Context.Sound.denotes {p : Path} {parents : List String} {b : Binding}
    (hf : cx.find? p = some (parents, b)) : (absolutize p parents b).Denotes s := by
  have hb := Index.binding?_spec h.index (Context.binding?_of_find? h.imports hf)
  exact ⟨rfl, names_absolutize p parents b ▸ hb.1, hb.2⟩

theorem Context.Sound.bindTypePath_settled {span : Span} {absolute : Bool} {bound : List Segment}
    {b : Binding} {u : Ty} (hu : bindTypePath cx span ⟨absolute, bound, b⟩ = .ok u)
    (hb : b = .unbound) (hs : ∀ p ∈ Ty.pathsSegments bound, p.Settled s) : u.Settled s := by
  have hitem {parents : List String} {binding : Binding}
      (hf : cx.find? ⟨absolute, bound, b⟩ = some (parents, binding)) :
      (Ty.path (absolutize ⟨absolute, bound, b⟩ parents binding)).Settled s := by
    rw [Ty.Settled, Ty.paths_path, argPaths_absolutize]
    exact List.forall_mem_cons.mpr ⟨.inl (h.denotes hf), hs⟩
  unfold bindTypePath at hu
  split at hu
  · next name hname =>
    split_ifs at hu
    · cases hu
      exact List.forall_mem_nil _
    · split at hu
      · next hself _ =>
        cases hu
        exact h.selfType _ hself
      · split at hu
        · next hf =>
          cases hu
          exact hitem hf
        · cases hu
          exact List.forall_mem_cons.mpr ⟨.inr ⟨hname ▸ rfl, hb⟩, hs⟩
  · split at hu
    · next hf =>
      cases hu
      exact hitem hf
    · contradiction

end

section
variable {cx : Context} {s : Symbols}

mutual

theorem bindType_spec (h : cx.Sound s) {span : Span} : ∀ (t : Ty) {u : Ty},
    bindType cx span t = .ok u → t.BindsTo cx.scope u ∧ (t.Unbound → u.Settled s)
  | .path ⟨absolute, segments, binding⟩, u, hu => by
    simp only [bindType, Result.bind_eq_ok] at hu
    obtain ⟨bound, hs, hu⟩ := hu
    obtain ⟨hsegments, hsettled⟩ := bindSegments_spec h segments hs
    refine ⟨bindTypePath_binds hsegments hu, fun hun => ?_⟩
    obtain ⟨hb, hunargs⟩ := List.forall_mem_cons.mp hun
    exact h.bindTypePath_settled hu hb (hsettled hunargs)
  | .borrow kind inner, u, hu => by
    simp only [bindType, Result.bind_eq_ok, Result.pure_eq_ok] at hu
    obtain ⟨inner, hi, rfl⟩ := hu
    have hinner := bindType_spec h _ hi
    exact ⟨.borrow hinner.1, hinner.2⟩
  | .array inner size, u, hu => by
    simp only [bindType, Result.bind_eq_ok, Result.pure_eq_ok] at hu
    obtain ⟨inner, hi, rfl⟩ := hu
    have hinner := bindType_spec h _ hi
    exact ⟨.array hinner.1, hinner.2⟩
  | .tuple items, u, hu => by
    simp only [bindType, Result.bind_eq_ok, Result.pure_eq_ok] at hu
    obtain ⟨items, hi, rfl⟩ := hu
    have hitems := bindTypes_spec h _ hi
    exact ⟨.tuple hitems.1, hitems.2⟩
  | .wildcard, u, hu => by
    cases hu
    exact ⟨.wildcard, fun _ => List.forall_mem_nil _⟩
  | .unit, u, hu => by
    cases hu
    exact ⟨.unit, fun _ => List.forall_mem_nil _⟩
  | .primitive p, u, hu => by
    cases hu
    exact ⟨.primitive p, fun _ => List.forall_mem_nil _⟩
  | .generic name, u, hu => by
    cases hu
    exact ⟨.generic name, fun _ => List.forall_mem_nil _⟩
termination_by structural t => t

theorem bindTypes_spec (h : cx.Sound s) {span : Span} : ∀ (ts : List Ty) {us : List Ty},
    bindTypes cx span ts = .ok us → Ty.AllBind cx.scope ts us ∧
      ((∀ p ∈ Ty.pathsAll ts, p.binding = .unbound) → ∀ p ∈ Ty.pathsAll us, p.Settled s)
  | [], us, hus => by
    cases hus
    exact ⟨.nil, fun _ => List.forall_mem_nil _⟩
  | t :: ts, us, hus => by
    simp only [bindTypes, Result.bind_eq_ok, Result.pure_eq_ok] at hus
    obtain ⟨u, hu, us, hus, rfl⟩ := hus
    have ht := bindType_spec h _ hu
    have hts := bindTypes_spec h _ hus
    refine ⟨.cons ht.1 hts.1, fun hun => ?_⟩
    obtain ⟨hunt, hunts⟩ := List.forall_mem_append.mp hun
    exact List.forall_mem_append.mpr ⟨ht.2 hunt, hts.2 hunts⟩
termination_by structural ts => ts

theorem bindSegments_spec (h : cx.Sound s) {span : Span} : ∀ (segments : List Segment)
    {bound : List Segment}, bindSegments cx span segments = .ok bound →
      Ty.SegmentsBind cx.scope segments bound ∧
      ((∀ p ∈ Ty.pathsSegments segments, p.binding = .unbound) →
        ∀ p ∈ Ty.pathsSegments bound, p.Settled s)
  | [], bound, hb => by
    cases hb
    exact ⟨.nil, fun _ => List.forall_mem_nil _⟩
  | ⟨name, args⟩ :: rest, bound, hb => by
    simp only [bindSegments, Result.bind_eq_ok, Result.pure_eq_ok] at hb
    obtain ⟨found, hf, others, ho, rfl⟩ := hb
    have hargs := bindTypes_spec h _ hf
    have hrest := bindSegments_spec h _ ho
    refine ⟨.cons hargs.1 hrest.1, fun hun => ?_⟩
    obtain ⟨hunargs, hunrest⟩ := List.forall_mem_append.mp hun
    exact List.forall_mem_append.mpr ⟨hargs.2 hunargs, hrest.2 hunrest⟩
termination_by structural segments => segments

end

end
end Names
end BorrowLang
