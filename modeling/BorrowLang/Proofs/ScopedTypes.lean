import BorrowLang.Proofs.Generics
import BorrowLang.Proofs.Merge
import BorrowLang.Proofs.MethodSearch
import BorrowLang.Proofs.TypeProperties

/-!
Types that mention only some parameters. Substitution trades the parameters of a declared type for
those of its arguments, and a type without parameters is what a receiver is searched as.
-/
namespace BorrowLang

/-- Every parameter stands for an argument, or for a wildcard. -/
theorem Substitution.exists_get?_ofArgs {names : List String} {name : String} (h : name ∈ names)
    (args : List Ty) : ∃ t, get? (ofArgs names args) name = some t := by
  have hkeys : (ofArgs names args).map (·.1) = names.reverse := by
    rw [ofArgs, List.map_reverse, map_fst_pad]
  have hmem : name ∈ (ofArgs names args).map (·.1) := hkeys ▸ List.mem_reverse.mpr h
  obtain ⟨entry, he, rfl⟩ := List.mem_map.mp hmem
  refine Option.ne_none_iff_exists'.mp fun hnone => ?_
  exact absurd rfl (bne_iff_ne.mp (List.lookup_eq_none_iff.mp hnone entry he))

namespace Ty
variable {A B : String → Prop}

/-- Every parameter that the type mentions is one of these. -/
def GenericsIn (A : String → Prop) (t : Ty) : Prop := ∀ name ∈ t.generics, A name

theorem genericsIn_generic {name : String} : (generic name).GenericsIn A ↔ A name :=
  List.forall_mem_singleton

theorem compositional_genericsIn (A : String → Prop) :
    Compositional (fun _ => True) (GenericsIn A) where
  wildcard := List.forall_mem_nil _
  unit := List.forall_mem_nil _
  primitive _ := List.forall_mem_nil _
  borrow := Iff.rfl
  array := Iff.rfl
  tuple {items} := by
    simp only [GenericsIn, generics, mem_genericsAll]
    constructor
    · exact fun h t ht name hn => h name ⟨t, ht, hn⟩
    · rintro h name ⟨t, ht, hn⟩
      exact h t ht name hn
  path {p} := by
    obtain ⟨absolute, segments, binding⟩ := p
    simp only [GenericsIn, generics, mem_genericsSegments, mem_genericsAll, true_and]
    constructor
    · exact fun h s hs t ht name hn => h name ⟨s, hs, t, ht, hn⟩
    · rintro h name ⟨s, hs, t, ht, hn⟩
      exact h s hs t ht name hn

theorem genericsIn_path {p : Path} : (path p).GenericsIn A ↔ p.ArgsHave (GenericsIn A) :=
  (compositional_genericsIn A).path.trans (by rw [true_and])

theorem GenericsIn.mono {t : Ty} (h : t.GenericsIn A) (hAB : ∀ name, A name → B name) :
    t.GenericsIn B := fun name hn => hAB name (h name hn)

/-! ### Substitution -/

/-- A declared type has none of its own parameters left once they are given arguments: those that
are missing are wildcards. -/
theorem GenericsIn.substitute_ofArgs {names : List String} {args : List Ty} {t : Ty}
    (ht : t.GenericsIn (· ∈ names)) (ha : ∀ u ∈ args, u.GenericsIn A) :
    (t.substitute (.ofArgs names args)).GenericsIn A := by
  refine (compositional_genericsIn (· ∈ names)).substitute (compositional_genericsIn A) ?_ ht
  intro name hn
  obtain ⟨u, hu⟩ := Substitution.exists_get?_ofArgs (genericsIn_generic.mp hn) args
  rw [hu]
  exact (compositional_genericsIn A).ofArgs names ha _ (mem_of_lookup_eq_some hu)

/-- What is left of the parameters of a type are those that stand for nothing. -/
theorem GenericsIn.substitute {s : Substitution} {t : Ty}
    (ht : t.GenericsIn fun name => s.get? name = none → A name) (hs : ∀ e ∈ s, e.2.GenericsIn A) :
    (t.substitute s).GenericsIn A := by
  refine (compositional_genericsIn _).substitute (compositional_genericsIn A) ?_ ht
  intro name hn
  cases hg : s.get? name with
  | none => exact genericsIn_generic.mpr (genericsIn_generic.mp hn hg)
  | some u => exact hs _ (mem_of_lookup_eq_some hg)

/-! ### Types without parameters -/

/-- The type with a wildcard for every parameter. -/
def forget (t : Ty) : Ty := Id.run (t.resolveArgs fun _ => pure wildcard)

section
variable {frames : Frames} {span : Span}

mutual

/-- Where all its parameters are in scope, a type is searched as what is left without them. -/
theorem resolveArgs_eq_forget : ∀ {t u : Ty}, t.resolveArgs (frames.typeParam span) = .ok u →
    u = t.forget
  | .generic name, u, h => by
    simp only [resolveArgs, Frames.typeParam] at h
    split_ifs at h
    cases h
    rfl
  | .borrow kind inner, u, h => by
    simp only [resolveArgs, Result.bind_eq_ok, Result.pure_eq_ok] at h
    obtain ⟨v, hv, rfl⟩ := h
    exact congrArg (borrow kind) (resolveArgs_eq_forget hv)
  | .array inner size, u, h => by
    simp only [resolveArgs, Result.bind_eq_ok, Result.pure_eq_ok] at h
    obtain ⟨v, hv, rfl⟩ := h
    exact congrArg (array · size) (resolveArgs_eq_forget hv)
  | .path ⟨absolute, segments, binding⟩, u, h => by
    simp only [resolveArgs, Result.bind_eq_ok, Result.pure_eq_ok] at h
    obtain ⟨found, hf, rfl⟩ := h
    exact congrArg (fun s => path ⟨absolute, s, binding⟩) (resolveArgsSegments_eq_forget hf)
  | .tuple items, u, h => by
    simp only [resolveArgs, Result.bind_eq_ok, Result.pure_eq_ok] at h
    obtain ⟨us, hus, rfl⟩ := h
    exact congrArg tuple (resolveArgsAll_eq_forget hus)
  | .wildcard, u, h | .unit, u, h | .primitive _, u, h => by
    cases h
    rfl

theorem resolveArgsAll_eq_forget : ∀ {ts us : List Ty},
    resolveArgsAll (frames.typeParam span) ts = .ok us →
      us = Id.run (resolveArgsAll (fun _ => pure wildcard) ts)
  | [], us, h => by
    cases h
    rfl
  | t :: ts, us, h => by
    simp only [resolveArgsAll, Result.bind_eq_ok, Result.pure_eq_ok] at h
    obtain ⟨u, hu, us, hus, rfl⟩ := h
    exact congrArg₂ List.cons (resolveArgs_eq_forget hu) (resolveArgsAll_eq_forget hus)

theorem resolveArgsSegments_eq_forget : ∀ {segments found : List Segment},
    resolveArgsSegments (frames.typeParam span) segments = .ok found →
      found = Id.run (resolveArgsSegments (fun _ => pure wildcard) segments)
  | [], found, h => by
    cases h
    rfl
  | ⟨name, args⟩ :: rest, found, h => by
    simp only [resolveArgsSegments, Result.bind_eq_ok, Result.pure_eq_ok] at h
    obtain ⟨args', ha, rest', hr, rfl⟩ := h
    exact congrArg₂ (fun a r => ⟨name, a⟩ :: r) (resolveArgsAll_eq_forget ha)
      (resolveArgsSegments_eq_forget hr)

end

end

theorem pointee?_forget (t : Ty) : t.forget.pointee? = t.pointee?.map forget := by
  cases t with
  | path p =>
    obtain ⟨absolute, segments, binding⟩ := p
    rfl
  | _ => rfl

/-- References are removed from a type as from what is left of it without its parameters. -/
theorem derefs?_forget (n : Nat) (t : Ty) : t.forget.derefs? n = (t.derefs? n).map forget := by
  induction n generalizing t with
  | zero => rfl
  | succ n ih =>
    rw [derefs?, derefs?, pointee?_forget]
    cases t.pointee? with
    | none => rfl
    | some inner => exact ih inner

end Ty

/-- A call means a method that is offered for the type of the receiver, without the parameters of the
caller, once so many references are removed from it. -/
theorem Check.method_offers {env : Env} {t : Ty} {method : Segment} {given : Nat} {span : Span}
    {c : Candidate} {frames after : Frames}
    (h : (Check.method env t method given span).run frames = (.ok c, after)) :
    ∃ u traitPath, t.derefs? c.derefs = some u ∧ c.receiver = u.forget ∧
      env.symbols.Offers traitPath u.forget method.name c.impl c.signature := by
  obtain ⟨-, r, hr, hm⟩ := method_eq_ok h
  obtain ⟨-, hderefs, hat, -, -⟩ := Env.method_eq_ok_iff.mp hm
  rw [Ty.resolveArgs_eq_forget hr, Ty.derefs?_forget, Option.map_eq_some_iff] at hderefs
  obtain ⟨u, hu, hforget⟩ := hderefs
  rw [← hforget] at hat
  cases Symbols.selects_of_methodAt? hat with
  | inherent hoffers => exact ⟨u, none, hu, hforget.symm, hoffers⟩
  | ofTrait _ _ _ _ _ hoffers => exact ⟨u, _, hu, hforget.symm, hoffers⟩

theorem Expr.type_derefTimes {n : Nat} {e : Expr} {t : Ty} (h : e.type.derefs? n = some t) :
    (e.derefTimes n).type = t := by
  induction n generalizing e with
  | zero => exact Option.some.inj h
  | succ n ih =>
    obtain ⟨inner, hi, h⟩ := Option.bind_eq_some_iff.mp h
    refine ih ?_
    rw [Ty.peel, hi]
    exact h

end BorrowLang
