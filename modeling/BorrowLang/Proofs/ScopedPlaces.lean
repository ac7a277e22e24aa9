import BorrowLang.Proofs.BoundPlaces
import BorrowLang.Proofs.ScopedTypes

/-!
In a program that is written without type parameters, the binding of names makes parameters only of
names that are parameters in scope; so what `Self` is mentions no parameters but those of its impl.
-/
namespace BorrowLang

namespace Phrase

/-- The parameters that the phrase mentions. -/
def generics : Phrase → List String
  | type t | annotated t | suffix t => t.generics
  | item p | value p => (Ty.path p).generics

def GenericsIn (A : String → Prop) (a : Phrase) : Prop := ∀ name ∈ a.generics, A name

end Phrase

namespace Ty
variable {scope : Scope}

mutual

theorem BindsTo.genericsIn (hself : ∀ t ∈ scope.selfType?, t.GenericsIn (· ∈ scope.generics)) :
    ∀ {t u : Ty}, t.BindsTo scope u → t.GenericsIn (· ∈ scope.generics) →
      u.GenericsIn (· ∈ scope.generics)
  | _, _, .wildcard, ht | _, _, .unit, ht | _, _, .primitive _, ht | _, _, .generic _, ht
  | _, _, .alias _ _, ht => ht
  | .borrow _ t, .borrow _ u, .borrow h, ht => BindsTo.genericsIn hself (t := t) (u := u) h ht
  | .array t _, .array u _, .array h, ht => BindsTo.genericsIn hself (t := t) (u := u) h ht
  | _, _, .tuple h, ht =>
    have hc := compositional_genericsIn (· ∈ scope.generics)
    hc.tuple.mpr (AllBind.genericsIn hself h (hc.tuple.mp ht))
  | _, _, .param _ hn, _ => genericsIn_generic.mpr hn
  | _, _, .selfType _ _ hs, _ => hself _ hs
  | _, _, .item _ h, ht => PathBinds.genericsIn hself h ht

theorem PathBinds.genericsIn (hself : ∀ t ∈ scope.selfType?, t.GenericsIn (· ∈ scope.generics)) :
    ∀ {p q : Path}, PathBinds scope p q → (path p).GenericsIn (· ∈ scope.generics) →
      (path q).GenericsIn (· ∈ scope.generics)
  | _, _, .mk parents binding h, hp => by
    refine genericsIn_path.mpr (List.forall_mem_append.mpr ⟨?_, ?_⟩)
    · -- The names in front are without arguments.
      exact List.forall_mem_map.mpr fun name _ => List.forall_mem_nil _
    · exact SegmentsBind.genericsIn hself h (genericsIn_path.mp hp)

theorem AllBind.genericsIn (hself : ∀ t ∈ scope.selfType?, t.GenericsIn (· ∈ scope.generics)) :
    ∀ {ts us : List Ty}, AllBind scope ts us → (∀ t ∈ ts, t.GenericsIn (· ∈ scope.generics)) →
      ∀ u ∈ us, u.GenericsIn (· ∈ scope.generics)
  | _, _, .nil, _ => List.forall_mem_nil _
  | _, _, .cons h hs, ht =>
    have ht := List.forall_mem_cons.mp ht
    List.forall_mem_cons.mpr ⟨BindsTo.genericsIn hself h ht.1, AllBind.genericsIn hself hs ht.2⟩

theorem SegmentsBind.genericsIn (hself : ∀ t ∈ scope.selfType?, t.GenericsIn (· ∈ scope.generics)) :
    ∀ {segments bound : List Segment}, SegmentsBind scope segments bound →
      (∀ s ∈ segments, ∀ t ∈ s.args, t.GenericsIn (· ∈ scope.generics)) →
      ∀ s ∈ bound, ∀ t ∈ s.args, t.GenericsIn (· ∈ scope.generics)
  | _, _, .nil, _ => List.forall_mem_nil _
  | _, _, .cons hargs hrest, h =>
    have h := List.forall_mem_cons.mp h
    List.forall_mem_cons.mpr
      ⟨AllBind.genericsIn hself hargs h.1, SegmentsBind.genericsIn hself hrest h.2⟩

end

end Ty

theorem Phrase.BindsTo.genericsIn {scope : Scope}
    (hself : ∀ t ∈ scope.selfType?, t.GenericsIn (· ∈ scope.generics)) {a b : Phrase}
    (h : a.BindsTo scope b) (ha : a.GenericsIn (· ∈ scope.generics)) :
    b.GenericsIn (· ∈ scope.generics) := by
  cases h with
  | type h => exact Ty.BindsTo.genericsIn hself h ha
  | item h => exact Ty.PathBinds.genericsIn hself h ha
  | value _ h => exact Ty.PathBinds.genericsIn hself h ha
  | localValue | annotated | suffix => exact ha

/-! ### Self types -/

namespace Place

/-- What `Self` is at the place is a type of the program that is itself written where there is no
`Self`, and no parameters are in scope there that are not in scope here. -/
def SelfWritten (places : List Place) (pl : Place) : Prop :=
  ∀ t ∈ pl.scope.selfType?, ∃ q ∈ places,
    q.phrase = .type t ∧ q.scope.selfType? = none ∧ q.scope.generics ⊆ pl.scope.generics

variable {places others : List Place} {pl : Place}

theorem selfWritten_of_none (h : pl.scope.selfType? = none) : pl.SelfWritten places := by
  intro t ht
  rw [h] at ht
  contradiction

theorem SelfWritten.mono (h : pl.SelfWritten places) (hsub : places ⊆ others) :
    pl.SelfWritten others := fun t ht =>
  let ⟨q, hq, hwritten⟩ := h t ht
  ⟨q, hsub hq, hwritten⟩

theorem forall_selfWritten_append (h : ∀ pl ∈ places, pl.SelfWritten places)
    (h' : ∀ pl ∈ others, pl.SelfWritten others) :
    ∀ pl ∈ places ++ others, pl.SelfWritten (places ++ others) :=
  List.forall_mem_append.mpr ⟨fun pl hpl => (h pl hpl).mono (List.subset_append_left _ _),
    fun pl hpl => (h' pl hpl).mono (List.subset_append_right _ _)⟩

end Place

theorem Member.scope_of_mem_places {scope : Scope} {m : Member} {pl : Place}
    (h : pl ∈ m.places scope) :
    pl.scope.selfType? = scope.selfType? ∧ scope.generics ⊆ pl.scope.generics := by
  cases m with
  | function body =>
    obtain ⟨a, -, rfl⟩ := List.mem_map.mp h
    exact ⟨rfl, List.subset_append_right _ _⟩
  | const t value =>
    obtain ⟨a, -, rfl⟩ := List.mem_map.mp h
    exact ⟨rfl, List.Subset.refl _⟩
  | type target =>
    obtain rfl := List.mem_singleton.mp h
    exact ⟨rfl, List.Subset.refl _⟩

theorem ImplBlock.selfWritten (d : ImplBlock) :
    ∀ pl ∈ d.places .empty, pl.SelfWritten (d.places .empty) := by
  refine List.forall_mem_append.mpr ⟨?_, fun pl hpl => ?_⟩
  · exact List.forall_mem_map.mpr fun a _ => Place.selfWritten_of_none rfl
  · obtain ⟨item, -, hpl⟩ := List.mem_flatMap.mp hpl
    obtain ⟨hself, hgenerics⟩ := Member.scope_of_mem_places hpl
    intro t ht
    rw [hself] at ht
    obtain rfl := Option.some.inj ht
    refine ⟨⟨Scope.empty.withGenerics d.params.names, .type d.selfType⟩, ?_, rfl, rfl, hgenerics⟩
    simp [places]

theorem TraitDef.selfType?_of_mem_places {scope : Scope} {d : TraitDef} {pl : Place}
    (h : pl ∈ d.places scope) : pl.scope.selfType? = scope.selfType? := by
  rcases List.mem_append.mp h with h | h
  · obtain ⟨a, -, rfl⟩ := List.mem_map.mp h
    rfl
  · obtain ⟨f, -, hf⟩ := List.mem_flatMap.mp h
    obtain ⟨a, -, rfl⟩ := List.mem_map.mp hf
    rfl

mutual

theorem Module.selfWritten : ∀ m : Module, ∀ pl ∈ m.places, pl.SelfWritten m.places
  | ⟨_, _, items⟩ => Place.forall_selfWritten_append
    (List.forall_mem_map.mpr fun _ _ => Place.selfWritten_of_none rfl)
    (itemPlaces_selfWritten items)

theorem Item.selfWritten : ∀ i : Item, ∀ pl ∈ i.places, pl.SelfWritten i.places
  | .function _ | .struct _ | .enum _ | .static _ | .typeAlias _ =>
    List.forall_mem_map.mpr fun _ _ => Place.selfWritten_of_none rfl
  | .traitDef _ => fun _ hpl => Place.selfWritten_of_none (TraitDef.selfType?_of_mem_places hpl)
  | .impl d => d.selfWritten
  | .module m => m.selfWritten

theorem itemPlaces_selfWritten : ∀ is : List Item,
    ∀ pl ∈ itemPlaces is, pl.SelfWritten (itemPlaces is)
  | [] => List.forall_mem_nil _
  | i :: is => Place.forall_selfWritten_append i.selfWritten (itemPlaces_selfWritten is)

end

/-- Everything written in the bound module mentions only parameters that are in scope there. -/
theorem Module.places_scoped {source root : Module} (h : source.bindNames = .ok root)
    (hun : ∀ pl ∈ source.places, pl.phrase.Unbound)
    (hwritten : ∀ pl ∈ source.places, pl.phrase.generics = []) :
    ∀ pl ∈ root.places, pl.phrase.GenericsIn (· ∈ pl.scope.generics) := by
  have hbecome := Module.places_become h (Symbols.covers_collect root) hun
  have hplace {pl : Place} (hpl : pl ∈ root.places)
      (hself : ∀ t ∈ pl.scope.selfType?, t.GenericsIn (· ∈ pl.scope.generics)) :
      pl.phrase.GenericsIn (· ∈ pl.scope.generics) := by
    obtain ⟨a, ha, hbecomes⟩ := exists_of_forall₂ hbecome hpl
    refine hbecomes.phrase.binds.genericsIn hself fun name hn => ?_
    rw [hwritten a ha] at hn
    contradiction
  intro pl hpl
  refine hplace hpl fun t ht => ?_
  obtain ⟨q, hq, hphrase, hnone, hsub⟩ := root.selfWritten pl hpl t ht
  have htype := hplace hq fun u hu => absurd hu (hnone ▸ Option.not_mem_none u)
  rw [hphrase] at htype
  exact fun name hn => hsub (htype name hn)

theorem Program.places_scoped {source : Module} {p : Program} (h : ofModule source = .ok p)
    (hun : ∀ pl ∈ source.places, pl.phrase.Unbound)
    (hwritten : ∀ pl ∈ source.places, pl.phrase.generics = []) :
    ∀ pl ∈ p.root.places, pl.phrase.GenericsIn (· ∈ pl.scope.generics) := by
  simp only [ofModule, Result.bind_eq_ok, Result.pure_eq_ok] at h
  obtain ⟨root, hr, symbols, -, rfl⟩ := h
  exact Module.places_scoped hr hun hwritten

end BorrowLang
