import BorrowLang.Proofs.DeclaredTypes
import BorrowLang.Proofs.ScopedPlaces

/-!
Every type among the symbols mentions only the parameters of its own item. Wherever the checker
takes over such a type, the arguments that a value has, or wildcards, stand for these parameters.
-/
namespace BorrowLang
open Ty (GenericsIn compositional_genericsIn)

namespace Symbols

/-- Every type mentions only the parameters of the item and the impl that it is written in. -/
structure Scoped (s : Symbols) : Prop where
  types : s.TypesIn fun names => GenericsIn (· ∈ names)
  targets : s.TargetsIn fun names => GenericsIn (· ∈ names)

end Symbols

namespace Aliases
variable {s : Symbols} {A : String → Prop}

theorem genericsIn_of_expandAt (h : s.TargetsIn fun names => GenericsIn (· ∈ names)) {span : Span} :
    ∀ {n : Nat} {t u : Ty}, t.GenericsIn A → s.aliases.expandAt span n t = .ok u → u.GenericsIn A
  | 0, t, u, ht, hu => by
    rw [expandAt] at hu
    exact (compositional_genericsIn A).expandWith (fun _ _ _ _ hnone => by cases hnone) ht hu
  | n + 1, t, u, ht, hu => by
    rw [expandAt] at hu
    refine (compositional_genericsIn A).expandWith (fun key args v hargs hv => ?_) ht hu
    simp only [Result.bind_eq_ok, Table.find_eq_ok] at hv
    obtain ⟨d, hd, hv⟩ := hv
    exact genericsIn_of_expandAt h ((h key d hd).substitute_ofArgs hargs) hv

theorem genericsIn_of_expand (h : s.TargetsIn fun names => GenericsIn (· ∈ names)) {span : Span}
    {t u : Ty} (ht : t.GenericsIn A) (hu : s.aliases.expand span t = .ok u) : u.GenericsIn A :=
  genericsIn_of_expandAt h ht hu

end Aliases

theorem Phrase.GenericsIn.ofType {A : String → Prop} {a : Phrase} (h : a.GenericsIn A) :
    a.OfType (Ty.GenericsIn A) := by
  cases a with
  | type t => exact h
  | item _ | value _ | annotated _ | suffix _ => trivial

namespace Symbols

theorem scoped_ofModule {root : Module} {s : Symbols} (h : ofModule root = .ok s)
    (hroot : ∀ pl ∈ root.places, pl.phrase.GenericsIn (· ∈ pl.scope.generics)) : s.Scoped := by
  obtain ⟨htypes, htargets⟩ :
      (collect [] empty root).TypesIn (fun names => GenericsIn (· ∈ names)) ∧
        (collect [] empty root).TargetsIn fun names => GenericsIn (· ∈ names) :=
    collect_types root (fun pl hpl => (hroot pl hpl).ofType) ⟨types_empty, nofun⟩
  refine ⟨htypes.expandAliases ?_ h, ?_⟩
  · exact fun names span t u ht hu => Aliases.genericsIn_of_expand htargets ht hu
  · rw [TargetsIn, aliases_of_expandAliases h]
    exact htargets

/-- Arguments, or wildcards, take the place of all the parameters of a declared type. -/
theorem Scoped.declares {s : Symbols} (h : s.Scoped) (A : String → Prop) :
    s.Declares (fun _ => True) (fun names => GenericsIn (· ∈ names)) (GenericsIn A) where
  compositional := compositional_genericsIn A
  owner _ := ⟨trivial, trivial⟩
  types := h.types
  instantiate _ _ _ ht ha := ht.substitute_ofArgs ha
  closed _ ht := ht.mono nofun

end Symbols

/-- Every type among the symbols of the program mentions only parameters of its own item. -/
theorem Program.symbols_scoped {source : Module} {p : Program} (h : ofModule source = .ok p)
    (hun : ∀ pl ∈ source.places, pl.phrase.Unbound)
    (hwritten : ∀ pl ∈ source.places, pl.phrase.generics = []) : p.symbols.Scoped := by
  have hplaces := places_scoped h hun hwritten
  simp only [ofModule, Result.bind_eq_ok, Result.pure_eq_ok] at h
  obtain ⟨root, -, symbols, hs, rfl⟩ := h
  exact Symbols.scoped_ofModule hs hplaces

end BorrowLang
