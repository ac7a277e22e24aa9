import BorrowLang.Proofs.BoundPlaces
import BorrowLang.Proofs.Finds
import BorrowLang.Proofs.SymbolTypes

/-! The items that the types of a program name are there, and the types of those items name no
others. -/
namespace BorrowLang

theorem Path.Settled.known {s : Symbols} {p : Path} (h : p.Settled s) : p.binding.Known s := by
  rcases h with h | ⟨-, h⟩
  · exact h.known
  · exact h ▸ trivial

/-- Everything the phrase names is there. -/
def Phrase.Known (s : Symbols) (a : Phrase) : Prop := ∀ p ∈ a.paths, p.binding.Known s

namespace Phrase
variable {s : Symbols}

theorem Unbound.known {a : Phrase} (h : a.Unbound) : a.Known s := fun p hp => h p hp ▸ trivial

theorem Known.ofType {a : Phrase} (h : a.Known s) : a.OfType (Ty.Known s) := by
  cases a with
  | type t => exact h
  | item _ | value _ | annotated _ | suffix _ => trivial

theorem Becomes.known {scope : Scope} {a b : Phrase} (h : a.Becomes s scope b) (hun : a.Unbound) :
    b.Known s := by
  have hpath {q : Path} (hq : q.Denotes s ∧ ∀ r ∈ q.argPaths, r.Settled s) :
      ∀ r ∈ q :: q.argPaths, r.binding.Known s :=
    List.forall_mem_cons.mpr ⟨hq.1.known, fun r hr => (hq.2 r hr).known⟩
  have hsettled := h.settled hun
  cases h.binds with
  | type _ => exact fun p hp => (hsettled p hp).known
  | item _ => exact hpath hsettled
  | value _ hb =>
    rcases hsettled with ⟨hrelative, -⟩ | hq
    · rw [hb.names.1] at hrelative
      contradiction
    · exact hpath hq
  | localValue | annotated | suffix => exact hun.known

end Phrase

theorem Program.places_known {source : Module} {p : Program} (h : ofModule source = .ok p)
    (hun : ∀ pl ∈ source.places, pl.phrase.Unbound) :
    ∀ pl ∈ p.root.places, pl.phrase.Known p.symbols := by
  intro pl hpl
  obtain ⟨a, ha, hbecomes⟩ := exists_place h hun hpl
  exact hbecomes.phrase.known (hun a ha)

namespace Symbols

/-- Whatever the types among the symbols name is there. -/
structure Closed (s : Symbols) : Prop where
  types : s.Types (Ty.Known s)
  targets : s.Targets (Ty.Known s)

end Symbols

theorem Substitution.allBindings_ofArgs {P : Binding → Prop} (names : List String) {args : List Ty}
    (h : ∀ t ∈ args, t.AllBindings P) : ∀ e ∈ ofArgs names args, e.2.AllBindings P :=
  (Ty.compositional_allBindings P).ofArgs names h

namespace Aliases
variable {s : Symbols}
open Result

theorem finds_expandAt (h : s.Targets (Ty.Known s)) (span : Span) (n : Nat) {t : Ty}
    (ht : t.Known s) : (s.aliases.expandAt span n t).Finds (Ty.Known s) := by
  induction n generalizing t with
  | zero =>
    rw [expandAt]
    exact Ty.finds_expandWith (fun _ _ _ _ => finds_throw id) ht
  | succ n ih =>
    refine Ty.finds_expandWith (fun key args hkey hargs => ?_) ht
    refine (Table.find_finds hkey fun d hd => h key d hd).bind fun d hd => ?_
    exact ih (hd.substitute (Substitution.allBindings_ofArgs _ hargs))

theorem finds_expand (h : s.Targets (Ty.Known s)) (span : Span) {t : Ty} (ht : t.Known s) :
    (s.aliases.expand span t).Finds (Ty.Known s) := finds_expandAt h span depthLimit ht

end Aliases

/-- The expansion of aliases closes the symbols over what is written in the program. -/
theorem Symbols.closed_ofModule {root : Module} {s : Symbols} (h : ofModule root = .ok s)
    (hroot : ∀ pl ∈ root.places, pl.phrase.Known s) : s.Closed := by
  have hcollected : (collect [] empty root).TypesIn (fun _ => Ty.Known s) ∧
      (collect [] empty root).TargetsIn fun _ => Ty.Known s :=
    collect_types root (fun pl hpl => (hroot pl hpl).ofType) ⟨types_empty, nofun⟩
  have haliases : s.aliases = (collect [] empty root).aliases := aliases_of_expandAliases h
  have htargets : s.Targets (Ty.Known s) := by
    rw [Targets, haliases]
    exact hcollected.2
  refine ⟨Types.expandAliases (types_iff.mpr hcollected.1) (fun span t u ht hu => ?_) h, htargets⟩
  have hfinds := Aliases.finds_expand htargets span ht
  rw [haliases, hu] at hfinds
  exact hfinds

theorem Program.symbols_closed {source : Module} {p : Program} (h : ofModule source = .ok p)
    (hun : ∀ pl ∈ source.places, pl.phrase.Unbound) : p.symbols.Closed := by
  have hplaces := places_known h hun
  simp only [ofModule, Result.bind_eq_ok, Result.pure_eq_ok] at h
  obtain ⟨root, -, symbols, hs, rfl⟩ := h
  exact Symbols.closed_ofModule hs hplaces

end BorrowLang
