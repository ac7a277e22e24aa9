import Mathlib.Tactic.SplitIfs
import BorrowLang.Proofs.Merge
import BorrowLang.Proofs.Runs

/-!
Properties that a type has through its parts: everything that makes types of types with such a
property makes types with the property.
-/
namespace BorrowLang

/-- A property of the arguments of every segment. -/
def Path.ArgsHave (Q : Ty → Prop) (p : Path) : Prop := ∀ s ∈ p.segments, ∀ t ∈ s.args, Q t

namespace Path
variable {Q : Ty → Prop} {p : Path} (hp : p.ArgsHave Q)
include hp

theorem ArgsHave.lastArgs : ∀ t ∈ p.lastArgs, Q t := by
  unfold Path.lastArgs last?
  cases hl : p.segments.getLast? with
  | none => exact List.forall_mem_nil _
  | some s => exact hp s (List.mem_of_getLast? hl)

theorem ArgsHave.enumArgs : ∀ t ∈ p.enumArgs, Q t := by
  unfold Path.enumArgs
  split_ifs
  · unfold parentArgs
    cases hl : p.segments.dropLast.getLast? with
    | none => exact List.forall_mem_nil _
    | some segment => exact hp segment (List.dropLast_subset _ (List.mem_of_getLast? hl))
  · exact hp.lastArgs

theorem ArgsHave.parent : p.parent.ArgsHave Q :=
  fun segment hs => hp segment (List.dropLast_subset _ hs)

theorem ArgsHave.withLastArgs {args : List Ty} (ha : ∀ t ∈ args, Q t) :
    (p.withLastArgs args).ArgsHave Q := by
  refine List.forall_mem_append.mpr ⟨fun segment hs => hp segment (List.dropLast_subset _ hs), ?_⟩
  cases p.last? with
  | none => exact List.forall_mem_nil _
  | some segment => exact List.forall_mem_singleton.mpr ha

end Path

namespace Ty

/-- A type has the property just when its parts have it and the bindings of its paths are of some
kind. It is left open which parameters have it. -/
structure Compositional (P : Binding → Prop) (Q : Ty → Prop) : Prop where
  wildcard : Q wildcard
  unit : Q unit
  primitive (p : Primitive) : Q (primitive p)
  borrow {kind : BorrowKind} {t : Ty} : Q (borrow kind t) ↔ Q t
  array {t : Ty} {size : Option UInt64} : Q (array t size) ↔ Q t
  tuple {items : List Ty} : Q (tuple items) ↔ ∀ t ∈ items, Q t
  path {p : Path} : Q (path p) ↔ P p.binding ∧ p.ArgsHave Q

/-- Given arguments with the property, aliases unfold to types with it. -/
def UnfoldsTo (Q : Ty → Prop) (unfold : Key → List Ty → Result Ty) : Prop :=
  ∀ key args u, (∀ t ∈ args, Q t) → unfold key args = .ok u → Q u

/-- The aliases of the program and those of the open blocks stand for types with the property. -/
structure ResolvesTo (Q : Ty → Prop) (env : Env) (frames : Frames) (span : Span) : Prop where
  expand : ∀ t u, Q t → env.symbols.aliases.expand span t = .ok u → Q u
  alias? : ∀ name t, frames.alias? name = some t → Q t

namespace Compositional
variable {P : Binding → Prop} {Q : Ty → Prop}

/-! ### Parts -/

section
variable (hQ : Compositional P Q)
include hQ

theorem pointee? {t inner : Ty} (ht : Q t) (h : t.pointee? = some inner) : Q inner := by
  cases t with
  | borrow kind u => exact Option.some.inj h ▸ hQ.borrow.mp ht
  | _ => cases h

theorem peel {t : Ty} (ht : Q t) : Q t.peel := by
  unfold Ty.peel
  cases h : t.pointee? with
  | none => exact ht
  | some inner => exact hQ.pointee? ht h

theorem stripped {t : Ty} (ht : Q t) : Q t.stripped := by
  fun_induction Ty.stripped t with
  | case1 _ inner ih => exact ih (hQ.borrow.mp ht)
  | case2 t _ => exact ht

theorem element {t : Ty} (ht : Q t) : Q t.element := by
  unfold Ty.element
  split
  · next inner size hs => exact hQ.array.mp (hs ▸ hQ.stripped ht)
  · exact hQ.wildcard

theorem behind {t : Ty} (ht : Q t) (kind : Option BorrowKind) : Q (t.behind kind) := by
  unfold Ty.behind
  split
  · exact ht
  · split_ifs
    · exact ht
    · exact hQ.borrow.mpr ht

theorem argsOf {t : Ty} {owner : Key} {span : Span} {args : List Ty} (ht : Q t)
    (h : t.argsOf owner span = .ok args) : ∀ u ∈ args, Q u := by
  unfold Ty.argsOf at h
  split at h
  · cases h
    exact List.forall_mem_nil _
  · next p hs =>
    split_ifs at h
    cases h
    exact (hQ.path.mp (hs ▸ hQ.stripped ht)).2.lastArgs
  · contradiction

theorem resize (n : Nat) {ts : List Ty} (h : ∀ t ∈ ts, Q t) : ∀ t ∈ Ty.resize n ts, Q t := by
  refine List.forall_mem_append.mpr ⟨fun t ht => h t (List.mem_of_mem_take ht), fun t ht => ?_⟩
  exact List.eq_of_mem_replicate ht ▸ hQ.wildcard

theorem tupleParts {t : Ty} {n : Nat} {span : Span} {parts : List Ty} (ht : Q t)
    (h : t.tupleParts n span = .ok parts) : ∀ u ∈ parts, Q u := by
  unfold Ty.tupleParts at h
  split at h
  · cases h
    exact fun u hu => List.eq_of_mem_replicate hu ▸ hQ.wildcard
  · split_ifs at h
    cases h
    exact List.forall_mem_nil _
  · split_ifs at h
    cases h
    exact hQ.tuple.mp ht
  · contradiction

theorem referencePart {t inner : Ty} {span : Span} (ht : Q t)
    (h : t.referencePart span = .ok inner) : Q inner := by
  unfold Ty.referencePart at h
  split at h
  · cases h
    exact hQ.wildcard
  · cases h
    exact hQ.borrow.mp ht
  · contradiction

end

/-! ### Merging -/

mutual

theorem merge? (hQ : Compositional P Q) : ∀ {t u v : Ty}, Q t → Q u → t.merge? u = some v → Q v
  | t, .wildcard, v, ht, _, h => by
    rw [merge?_wildcard, Option.some.injEq] at h
    exact h ▸ ht
  | .wildcard, u, v, _, hu, h => by
    rw [wildcard_merge?, Option.some.injEq] at h
    exact h ▸ hu
  | .unit, .unit, v, ht, _, h => by
    cases h
    exact ht
  | .primitive p, .primitive q, v, ht, _, h => by
    simp only [Ty.merge?] at h
    split_ifs at h
    cases h
    exact ht
  | .generic m, .generic n, v, ht, _, h => by
    simp only [Ty.merge?] at h
    split_ifs at h
    cases h
    exact ht
  | .borrow k a, .borrow l b, v, ht, hu, h => by
    simp only [Ty.merge?] at h
    split_ifs at h
    obtain ⟨c, hc, rfl⟩ := Option.map_eq_some_iff.mp h
    exact hQ.borrow.mpr (hQ.merge? (hQ.borrow.mp ht) (hQ.borrow.mp hu) hc)
  | .path ⟨a, segments, binding⟩, .path ⟨b, others, other⟩, v, ht, hu, h => by
    simp only [Ty.merge?] at h
    split_ifs at h
    obtain ⟨merged, hm, rfl⟩ := Option.map_eq_some_iff.mp h
    obtain ⟨hb, hs⟩ := hQ.path.mp ht
    exact hQ.path.mpr ⟨hb, hQ.mergeSegments? hs (hQ.path.mp hu).2 hm⟩
  | .tuple ts, .tuple us, v, ht, hu, h => by
    simp only [Ty.merge?] at h
    obtain ⟨vs, hv, rfl⟩ := Option.map_eq_some_iff.mp h
    exact hQ.tuple.mpr (hQ.mergeAll? (hQ.tuple.mp ht) (hQ.tuple.mp hu) hv)
  | .array a m, .array b n, v, ht, hu, h => by
    simp only [Ty.merge?] at h
    split at h
    · next hc =>
      cases h
      exact hQ.array.mpr (hQ.merge? (hQ.array.mp ht) (hQ.array.mp hu) hc)
    · contradiction

theorem mergeAll? (hQ : Compositional P Q) : ∀ {ts us vs : List Ty}, (∀ t ∈ ts, Q t) →
    (∀ u ∈ us, Q u) → Ty.mergeAll? ts us = some vs → ∀ v ∈ vs, Q v
  | [], [], vs, _, _, h => by
    cases h
    exact List.forall_mem_nil _
  | t :: ts, u :: us, vs, ht, hu, h => by
    rw [Ty.mergeAll?] at h
    split at h
    · next hv hvs =>
      cases h
      obtain ⟨ht, hts⟩ := List.forall_mem_cons.mp ht
      obtain ⟨hu, hus⟩ := List.forall_mem_cons.mp hu
      exact List.forall_mem_cons.mpr ⟨hQ.merge? ht hu hv, hQ.mergeAll? hts hus hvs⟩
    · contradiction

theorem mergeSegments? (hQ : Compositional P Q) : ∀ {ss ss' merged : List Segment},
    (∀ s ∈ ss, ∀ t ∈ s.args, Q t) → (∀ s ∈ ss', ∀ t ∈ s.args, Q t) →
      Ty.mergeSegments? ss ss' = some merged →
      ∀ s ∈ merged, ∀ t ∈ s.args, Q t
  | [], [], merged, _, _, h => by
    cases h
    exact List.forall_mem_nil _
  | ⟨m, args⟩ :: rest, ⟨n, others⟩ :: rest', merged, hs, hs', h => by
    rw [Ty.mergeSegments?] at h
    obtain ⟨hargs, hrest⟩ := List.forall_mem_cons.mp hs
    obtain ⟨hothers, hrest'⟩ := List.forall_mem_cons.mp hs'
    by_cases hmn : m = n
    · simp only [if_pos hmn] at h
      split at h
      · next found others hfound hr =>
        cases h
        refine List.forall_mem_cons.mpr ⟨?_, hQ.mergeSegments? hrest hrest' hr⟩
        split_ifs at hfound
        · exact Option.some.inj hfound ▸ hothers
        · exact Option.some.inj hfound ▸ hargs
        · exact hQ.mergeAll? hargs hothers hfound
      · contradiction
    · simp only [if_neg hmn] at h
      contradiction

end

theorem mergeAt (hQ : Compositional P Q) {t u v : Ty} {span : Span} (ht : Q t) (hu : Q u)
    (h : t.mergeAt u span = .ok v) : Q v := hQ.merge? ht hu (mergeAt_eq_ok_iff.mp h)

/-! ### Matching -/

mutual

/-- What the parameters of a template are found to be are parts of the type that it is matched
with. -/
theorem matchTemplate? (hQ : Compositional P Q) : ∀ {t u : Ty} {found : Matches}, Q u →
    t.matchTemplate? u = some found → ∀ m ∈ found, Q m.2
  | .generic name, u, found, hu, h => by
    cases u with
    | wildcard =>
      cases h
      exact List.forall_mem_nil _
    | _ =>
      cases h
      exact List.forall_mem_singleton.mpr hu
  | .wildcard, u, found, hu, h => by
    cases u <;> cases h <;> exact List.forall_mem_nil _
  | .unit, u, found, hu, h => by
    cases u <;> cases h <;> exact List.forall_mem_nil _
  | .primitive p, u, found, hu, h => by
    cases u with
    | wildcard =>
      cases h
      exact List.forall_mem_nil _
    | primitive q =>
      simp only [Ty.matchTemplate?] at h
      split_ifs at h
      cases h
      exact List.forall_mem_nil _
    | _ => cases h
  | .borrow k a, .wildcard, found, hu, h | .path p, .wildcard, found, hu, h
  | .tuple ts, .wildcard, found, hu, h | .array a m, .wildcard, found, hu, h => by
    cases h
    exact List.forall_mem_nil _
  | .borrow k a, .borrow l b, found, hu, h => by
    simp only [Ty.matchTemplate?] at h
    split_ifs at h
    exact hQ.matchTemplate? (hQ.borrow.mp hu) h
  | .path ⟨a, segments, _⟩, .path ⟨b, others, _⟩, found, hu, h => by
    simp only [Ty.matchTemplate?] at h
    split_ifs at h
    exact hQ.matchSegments? (hQ.path.mp hu).2 h
  | .tuple ts, .tuple us, found, hu, h => by
    simp only [Ty.matchTemplate?] at h
    exact hQ.matchAll? (hQ.tuple.mp hu) h
  | .array a m, .array b n, found, hu, h => by
    simp only [Ty.matchTemplate?] at h
    split_ifs at h
    exact hQ.matchTemplate? (hQ.array.mp hu) h

theorem matchAll? (hQ : Compositional P Q) : ∀ {ts us : List Ty} {found : Matches},
    (∀ u ∈ us, Q u) → Ty.matchAll? ts us = some found → ∀ m ∈ found, Q m.2
  | [], [], found, _, h => by
    cases h
    exact List.forall_mem_nil _
  | t :: ts, u :: us, found, hu, h => by
    obtain ⟨hu, hus⟩ := List.forall_mem_cons.mp hu
    rw [Ty.matchAll?] at h
    split at h
    · next hhere hlater =>
      cases h
      exact List.forall_mem_append.mpr ⟨hQ.matchTemplate? hu hhere, hQ.matchAll? hus hlater⟩
    · contradiction

theorem matchSegments? (hQ : Compositional P Q) : ∀ {ss ss' : List Segment} {found : Matches},
    (∀ s ∈ ss', ∀ t ∈ s.args, Q t) → Ty.matchSegments? ss ss' = some found → ∀ m ∈ found, Q m.2
  | [], [], found, _, h => by
    cases h
    exact List.forall_mem_nil _
  | ⟨m, args⟩ :: rest, ⟨n, others⟩ :: rest', found, hs, h => by
    obtain ⟨hothers, hrest⟩ := List.forall_mem_cons.mp hs
    rw [Ty.matchSegments?] at h
    by_cases hmn : m = n
    · simp only [if_pos hmn] at h
      split at h
      · next hhere hlater =>
        cases h
        refine List.forall_mem_append.mpr ⟨?_, hQ.matchSegments? hrest hlater⟩
        split_ifs at hhere
        · cases hhere
          exact List.forall_mem_nil _
        · exact hQ.matchAll? hothers hhere
      · contradiction
    · simp only [if_neg hmn] at h
      contradiction

end

/-! ### Binding of a self type -/

section
variable (hQ : Compositional P Q)
include hQ

theorem record? {sub new : Substitution} {name : String} {t : Ty} (hs : ∀ e ∈ sub, Q e.2) (ht : Q t)
    (h : sub.record? name t = some new) : ∀ e ∈ new, Q e.2 := by
  unfold Substitution.record? at h
  split at h
  · cases h
    exact List.forall_mem_append.mpr ⟨hs, List.forall_mem_singleton.mpr ht⟩
  · next old hold =>
    have hknown : Q old := hs _ (mem_of_lookup_eq_some hold)
    obtain ⟨merged, hm, rfl⟩ := Option.map_eq_some_iff.mp h
    refine List.forall_mem_map.mpr fun e he => ?_
    dsimp only
    split_ifs
    · exact hQ.merge? hknown ht hm
    · exact hs e he

theorem foldlM_record? {found : Matches} {sub new : Substitution} (hf : ∀ m ∈ found, Q m.2)
    (hs : ∀ e ∈ sub, Q e.2)
    (h : found.foldlM (fun s (name, u) => s.record? name u) sub = some new) : ∀ e ∈ new, Q e.2 := by
  induction found generalizing sub with
  | nil =>
    cases h
    exact hs
  | cons m found ih =>
    obtain ⟨hm, hrest⟩ := List.forall_mem_cons.mp hf
    simp only [List.foldlM_cons, Option.bind_eq_bind, Option.bind_eq_some_iff] at h
    obtain ⟨next, hn, h⟩ := h
    exact ih hrest (hQ.record? hs hm hn) h

theorem bindSelf? {d : ImplSignature} {t : Ty} {sub : Substitution} (ht : Q t)
    (h : d.bindSelf? t = some sub) : ∀ e ∈ sub, Q e.2 := by
  simp only [ImplSignature.bindSelf?, Option.bind_eq_bind, Option.bind_eq_some_iff] at h
  obtain ⟨found, hm, h⟩ := h
  exact hQ.foldlM_record? (hQ.matchTemplate? ht hm) (List.forall_mem_nil _) h

end

/-! ### Substitution -/

section
variable {Q' : Ty → Prop}

theorem ofArgs (hQ : Compositional P Q) (names : List String) {args : List Ty}
    (h : ∀ t ∈ args, Q t) : ∀ e ∈ Substitution.ofArgs names args, Q e.2 := by
  have hpad : ∀ e ∈ Substitution.pad names args, Q e.2 := by
    fun_induction Substitution.pad names args with
    | case1 args => exact List.forall_mem_nil _
    | case2 name names ih => exact List.forall_mem_cons.mpr ⟨hQ.wildcard, ih h⟩
    | case3 name names t ts ih =>
      obtain ⟨ht, hts⟩ := List.forall_mem_cons.mp h
      exact List.forall_mem_cons.mpr ⟨ht, ih hts⟩
  exact fun e he => hpad e (List.mem_reverse.mp he)

mutual

/-- What has one property gets another, if its parameters are given types with the other. -/
theorem substitute (hQ : Compositional P Q) (hQ' : Compositional P Q') {s : Substitution}
    (hs : ∀ name, Q (.generic name) → Q' ((s.get? name).getD (.generic name))) :
    ∀ {t : Ty}, Q t → Q' (t.substitute s)
  | .generic name, ht => hs name ht
  | .borrow kind inner, ht => hQ'.borrow.mpr (hQ.substitute hQ' hs (hQ.borrow.mp ht))
  | .array inner size, ht => hQ'.array.mpr (hQ.substitute hQ' hs (hQ.array.mp ht))
  | .path ⟨absolute, segments, binding⟩, ht => by
    obtain ⟨hb, hsegments⟩ := hQ.path.mp ht
    exact hQ'.path.mpr ⟨hb, hQ.substituteSegments hQ' hs hsegments⟩
  | .tuple items, ht => hQ'.tuple.mpr (hQ.substituteAll hQ' hs (hQ.tuple.mp ht))
  | .wildcard, _ => hQ'.wildcard
  | .unit, _ => hQ'.unit
  | .primitive p, _ => hQ'.primitive p

theorem substituteAll (hQ : Compositional P Q) (hQ' : Compositional P Q') {s : Substitution}
    (hs : ∀ name, Q (.generic name) → Q' ((s.get? name).getD (.generic name))) :
    ∀ {ts : List Ty}, (∀ t ∈ ts, Q t) → ∀ t ∈ Ty.substituteAll s ts, Q' t
  | [], _ => List.forall_mem_nil _
  | t :: ts, h => by
    obtain ⟨ht, hts⟩ := List.forall_mem_cons.mp h
    exact List.forall_mem_cons.mpr ⟨hQ.substitute hQ' hs ht, hQ.substituteAll hQ' hs hts⟩

theorem substituteSegments (hQ : Compositional P Q) (hQ' : Compositional P Q') {s : Substitution}
    (hs : ∀ name, Q (.generic name) → Q' ((s.get? name).getD (.generic name))) :
    ∀ {ss : List Segment}, (∀ segment ∈ ss, ∀ t ∈ segment.args, Q t) →
      ∀ segment ∈ Ty.substituteSegments s ss, ∀ t ∈ segment.args, Q' t
  | [], _ => List.forall_mem_nil _
  | ⟨name, args⟩ :: rest, h => by
    obtain ⟨hargs, hrest⟩ := List.forall_mem_cons.mp h
    exact List.forall_mem_cons.mpr
      ⟨hQ.substituteAll hQ' hs hargs, hQ.substituteSegments hQ' hs hrest⟩

end

mutual

theorem resolveArgs (hQ : Compositional P Q) (hQ' : Compositional P Q') {ask : String → Result Ty}
    (ha : ∀ name u, Q (.generic name) → ask name = .ok u → Q' u) :
    ∀ {t u : Ty}, Q t → t.resolveArgs ask = .ok u → Q' u
  | .generic name, u, ht, h => ha name u ht h
  | .borrow kind inner, u, ht, h => by
    simp only [Ty.resolveArgs, Result.bind_eq_ok, Result.pure_eq_ok] at h
    obtain ⟨v, hv, rfl⟩ := h
    exact hQ'.borrow.mpr (hQ.resolveArgs hQ' ha (hQ.borrow.mp ht) hv)
  | .array inner size, u, ht, h => by
    simp only [Ty.resolveArgs, Result.bind_eq_ok, Result.pure_eq_ok] at h
    obtain ⟨v, hv, rfl⟩ := h
    exact hQ'.array.mpr (hQ.resolveArgs hQ' ha (hQ.array.mp ht) hv)
  | .path ⟨absolute, segments, binding⟩, u, ht, h => by
    simp only [Ty.resolveArgs, Result.bind_eq_ok, Result.pure_eq_ok] at h
    obtain ⟨found, hf, rfl⟩ := h
    obtain ⟨hb, hsegments⟩ := hQ.path.mp ht
    exact hQ'.path.mpr ⟨hb, hQ.resolveArgsSegments hQ' ha hsegments hf⟩
  | .tuple items, u, ht, h => by
    simp only [Ty.resolveArgs, Result.bind_eq_ok, Result.pure_eq_ok] at h
    obtain ⟨us, hus, rfl⟩ := h
    exact hQ'.tuple.mpr (hQ.resolveArgsAll hQ' ha (hQ.tuple.mp ht) hus)
  | .wildcard, u, _, h => by
    cases h
    exact hQ'.wildcard
  | .unit, u, _, h => by
    cases h
    exact hQ'.unit
  | .primitive p, u, _, h => by
    cases h
    exact hQ'.primitive p

theorem resolveArgsAll (hQ : Compositional P Q) (hQ' : Compositional P Q')
    {ask : String → Result Ty} (ha : ∀ name u, Q (.generic name) → ask name = .ok u → Q' u) :
    ∀ {ts us : List Ty}, (∀ t ∈ ts, Q t) → Ty.resolveArgsAll ask ts = .ok us → ∀ u ∈ us, Q' u
  | [], us, _, h => by
    cases h
    exact List.forall_mem_nil _
  | t :: ts, us, ht, h => by
    simp only [Ty.resolveArgsAll, Result.bind_eq_ok, Result.pure_eq_ok] at h
    obtain ⟨u, hu, us, hus, rfl⟩ := h
    obtain ⟨ht, hts⟩ := List.forall_mem_cons.mp ht
    exact List.forall_mem_cons.mpr ⟨hQ.resolveArgs hQ' ha ht hu, hQ.resolveArgsAll hQ' ha hts hus⟩

theorem resolveArgsSegments (hQ : Compositional P Q) (hQ' : Compositional P Q')
    {ask : String → Result Ty} (ha : ∀ name u, Q (.generic name) → ask name = .ok u → Q' u) :
    ∀ {ss found : List Segment}, (∀ s ∈ ss, ∀ t ∈ s.args, Q t) →
      Ty.resolveArgsSegments ask ss = .ok found → ∀ s ∈ found, ∀ t ∈ s.args, Q' t
  | [], found, _, h => by
    cases h
    exact List.forall_mem_nil _
  | ⟨name, args⟩ :: rest, found, hs, h => by
    simp only [Ty.resolveArgsSegments, Result.bind_eq_ok, Result.pure_eq_ok] at h
    obtain ⟨args', hargs', rest', hrest', rfl⟩ := h
    obtain ⟨hargs, hrest⟩ := List.forall_mem_cons.mp hs
    exact List.forall_mem_cons.mpr
      ⟨hQ.resolveArgsAll hQ' ha hargs hargs', hQ.resolveArgsSegments hQ' ha hrest hrest'⟩

end

end

/-! ### Aliases -/

section
variable {unfold : Key → List Ty → Result Ty}

mutual

theorem expandWith (hQ : Compositional P Q) (hu : UnfoldsTo Q unfold) :
    ∀ {t u : Ty}, Q t → t.expandWith unfold = .ok u → Q u
  | .path ⟨absolute, segments, binding⟩, u, ht, h => by
    simp only [Ty.expandWith, Result.bind_eq_ok] at h
    obtain ⟨hb, hsegments⟩ := hQ.path.mp ht
    obtain ⟨found, hf, h⟩ := h
    have hfound := hQ.expandSegmentsWith hu hsegments hf
    split at h
    · next key =>
      exact hu key _ u (Path.ArgsHave.lastArgs (p := ⟨absolute, found, .typeAlias key⟩) hfound) h
    · obtain rfl := Except.ok.inj h
      exact hQ.path.mpr ⟨hb, hfound⟩
  | .borrow kind inner, u, ht, h => by
    simp only [Ty.expandWith, Result.bind_eq_ok, Result.pure_eq_ok] at h
    obtain ⟨v, hv, rfl⟩ := h
    exact hQ.borrow.mpr (hQ.expandWith hu (hQ.borrow.mp ht) hv)
  | .array inner size, u, ht, h => by
    simp only [Ty.expandWith, Result.bind_eq_ok, Result.pure_eq_ok] at h
    obtain ⟨v, hv, rfl⟩ := h
    exact hQ.array.mpr (hQ.expandWith hu (hQ.array.mp ht) hv)
  | .tuple items, u, ht, h => by
    simp only [Ty.expandWith, Result.bind_eq_ok, Result.pure_eq_ok] at h
    obtain ⟨us, hus, rfl⟩ := h
    exact hQ.tuple.mpr (hQ.expandAllWith hu (hQ.tuple.mp ht) hus)
  | .wildcard, u, ht, h | .unit, u, ht, h | .primitive _, u, ht, h | .generic _, u, ht, h => by
    cases h
    exact ht

theorem expandAllWith (hQ : Compositional P Q) (hu : UnfoldsTo Q unfold) : ∀ {ts us : List Ty},
    (∀ t ∈ ts, Q t) → Ty.expandAllWith unfold ts = .ok us → ∀ u ∈ us, Q u
  | [], us, _, h => by
    cases h
    exact List.forall_mem_nil _
  | t :: ts, us, ht, h => by
    simp only [Ty.expandAllWith, Result.bind_eq_ok, Result.pure_eq_ok] at h
    obtain ⟨u, ht', us, hts', rfl⟩ := h
    obtain ⟨ht, hts⟩ := List.forall_mem_cons.mp ht
    exact List.forall_mem_cons.mpr ⟨hQ.expandWith hu ht ht', hQ.expandAllWith hu hts hts'⟩

theorem expandSegmentsWith (hQ : Compositional P Q) (hu : UnfoldsTo Q unfold) :
    ∀ {ss found : List Segment}, (∀ s ∈ ss, ∀ t ∈ s.args, Q t) →
      Ty.expandSegmentsWith unfold ss = .ok found → ∀ s ∈ found, ∀ t ∈ s.args, Q t
  | [], found, _, h => by
    cases h
    exact List.forall_mem_nil _
  | ⟨name, args⟩ :: rest, found, hs, h => by
    simp only [Ty.expandSegmentsWith, Result.bind_eq_ok, Result.pure_eq_ok] at h
    obtain ⟨args', ha, rest', hs', rfl⟩ := h
    obtain ⟨hargs, hrest⟩ := List.forall_mem_cons.mp hs
    exact List.forall_mem_cons.mpr
      ⟨hQ.expandAllWith hu hargs ha, hQ.expandSegmentsWith hu hrest hs'⟩

end

end

section
variable {env : Env} {frames : Frames} {span : Span}

mutual

theorem resolveType (hQ : Compositional P Q) (hr : ResolvesTo Q env frames span) :
    ∀ {t u : Ty}, Q t → BorrowLang.resolveType env frames span t = .ok u → Q u
  | .path ⟨absolute, segments, binding⟩, u, ht, h => by
    simp only [BorrowLang.resolveType, Result.bind_eq_ok] at h
    obtain ⟨hb, hsegments⟩ := hQ.path.mp ht
    obtain ⟨found, hf, h⟩ := h
    have hpath : Q (.path ⟨absolute, found, binding⟩) :=
      hQ.path.mpr ⟨hb, hQ.resolveSegments hr hsegments hf⟩
    split at h
    · exact hr.expand _ u hpath h
    · split at h
      · obtain rfl := Except.ok.inj h
        exact hpath
      · split at h
        · next hlookup =>
          obtain rfl := Except.ok.inj h
          exact hr.alias? _ _ hlookup
        · contradiction
  | .borrow kind inner, u, ht, h => by
    simp only [BorrowLang.resolveType, Result.bind_eq_ok, Result.pure_eq_ok] at h
    obtain ⟨v, hv, rfl⟩ := h
    exact hQ.borrow.mpr (hQ.resolveType hr (hQ.borrow.mp ht) hv)
  | .array inner size, u, ht, h => by
    simp only [BorrowLang.resolveType, Result.bind_eq_ok, Result.pure_eq_ok] at h
    obtain ⟨v, hv, rfl⟩ := h
    exact hQ.array.mpr (hQ.resolveType hr (hQ.array.mp ht) hv)
  | .tuple items, u, ht, h => by
    simp only [BorrowLang.resolveType, Result.bind_eq_ok, Result.pure_eq_ok] at h
    obtain ⟨us, hus, rfl⟩ := h
    exact hQ.tuple.mpr (hQ.resolveTypes hr (hQ.tuple.mp ht) hus)
  | .wildcard, u, ht, h | .unit, u, ht, h | .primitive _, u, ht, h | .generic _, u, ht, h => by
    cases h
    exact ht

theorem resolveTypes (hQ : Compositional P Q) (hr : ResolvesTo Q env frames span) :
    ∀ {ts us : List Ty}, (∀ t ∈ ts, Q t) →
      BorrowLang.resolveTypes env frames span ts = .ok us → ∀ u ∈ us, Q u
  | [], us, _, h => by
    cases h
    exact List.forall_mem_nil _
  | t :: ts, us, ht, h => by
    simp only [BorrowLang.resolveTypes, Result.bind_eq_ok, Result.pure_eq_ok] at h
    obtain ⟨u, hu, us, hus, rfl⟩ := h
    obtain ⟨ht, hts⟩ := List.forall_mem_cons.mp ht
    exact List.forall_mem_cons.mpr ⟨hQ.resolveType hr ht hu, hQ.resolveTypes hr hts hus⟩

theorem resolveSegments (hQ : Compositional P Q) (hr : ResolvesTo Q env frames span) :
    ∀ {ss found : List Segment}, (∀ s ∈ ss, ∀ t ∈ s.args, Q t) →
      BorrowLang.resolveSegments env frames span ss = .ok found → ∀ s ∈ found, ∀ t ∈ s.args, Q t
  | [], found, _, h => by
    cases h
    exact List.forall_mem_nil _
  | ⟨name, args⟩ :: rest, found, hs, h => by
    simp only [BorrowLang.resolveSegments, Result.bind_eq_ok, Result.pure_eq_ok] at h
    obtain ⟨args', ha, rest', hs', rfl⟩ := h
    obtain ⟨hargs, hrest⟩ := List.forall_mem_cons.mp hs
    exact List.forall_mem_cons.mpr ⟨hQ.resolveTypes hr hargs ha, hQ.resolveSegments hr hrest hs'⟩

end

end

end Compositional
end Ty
end BorrowLang
