import Mathlib.Tactic.SplitIfs
import BorrowLang.Proofs.Denotation
import BorrowLang.Proofs.Places

/-! The types among the symbols of a program are those written for its items, aliases expanded. -/
namespace BorrowLang

def VariantData.types : VariantData → List Ty
  | value _ => []
  | tuple types => types
  | fields declared => declared.map (·.type)

theorem VariantData.positional?_types {d : VariantData} {types : List Ty}
    (h : d.positional? = some types) : types = d.types := by
  cases d with
  | value discriminant => exact (Option.some.inj h).symm
  | tuple ts => exact (Option.some.inj h).symm
  | fields declared => cases h

/-- All types of the signature have the property. -/
structure Signature.Types (Q : Ty → Prop) (f : Signature) : Prop where
  args : ∀ t ∈ f.args, Q t
  ret : Q f.ret

/-- What is written is not a type, or a type with the property. -/
def Phrase.OfType (Q : Ty → Prop) : Phrase → Prop
  | type t => Q t
  | item _ | value _ | annotated _ | suffix _ => True

section
variable {Q : Ty → Prop}

theorem Function.signature_types {d : Function} (h : ∀ a ∈ d.phrases, a.OfType Q) :
    d.signature.Types Q := by
  obtain ⟨hargs, hret⟩ := List.forall_mem_append.mp h
  refine ⟨List.forall_mem_map.mpr fun a ha => ?_, (List.forall_mem_cons.mp hret).1⟩
  exact (List.forall_mem_append.mp hargs).2 _ (List.mem_flatMap.mpr ⟨a, ha, .head _⟩)

theorem StructDef.fields_types {d : StructDef} (h : ∀ a ∈ d.phrases, a.OfType Q) :
    ∀ f ∈ d.fields, Q f.type := fun f hf =>
  (List.forall_mem_append.mp h).2 _ (List.mem_flatMap.mpr ⟨f, hf, .head _⟩)

theorem EnumDef.variants_types {d : EnumDef} (h : ∀ a ∈ d.phrases, a.OfType Q) :
    ∀ v ∈ d.variants, ∀ t ∈ v.data.types, Q t := by
  intro v hv t ht
  have hphrases : ∀ a ∈ v.data.phrases, a.OfType Q := fun a ha =>
    (List.forall_mem_append.mp h).2 a (List.mem_flatMap.mpr ⟨v, hv, ha⟩)
  cases hd : v.data with
  | value discriminant =>
    rw [hd] at ht
    cases ht
  | tuple types =>
    rw [hd] at ht hphrases
    exact hphrases _ (List.mem_map_of_mem ht)
  | fields declared =>
    rw [hd] at ht hphrases
    obtain ⟨f, hf, rfl⟩ := List.mem_map.mp ht
    exact hphrases _ (List.mem_flatMap.mpr ⟨f, hf, .head _⟩)

theorem AliasDef.target_type {d : AliasDef} (h : ∀ a ∈ d.phrases, a.OfType Q) : Q d.type :=
  h _ (List.mem_append_right _ (.head _))

theorem StaticDef.static_type {d : StaticDef} (h : ∀ a ∈ d.phrases, a.OfType Q) : Q d.type :=
  h _ (.head _)

end

namespace Symbols

/-- All types but the targets of aliases have the property, which may depend on the parameters that
are in scope where the type is written. -/
structure TypesIn (Q : List String → Ty → Prop) (s : Symbols) : Prop where
  structs : ∀ key d, s.structs.get? key = some d → ∀ f ∈ d.fields, Q d.params.names f.type
  enums : ∀ key d, s.enums.get? key = some d →
    ∀ v ∈ d.variants, ∀ t ∈ v.data.types, Q d.params.names t
  statics : ∀ key t, s.statics.get? key = some t → Q [] t
  functions : ∀ key f, s.functions.get? key = some f → f.Types (Q f.params.names)
  impls : ∀ d ∈ s.impls, Q d.params.names d.selfType ∧
    ∀ m ∈ d.methods, m.2.Types (Q (m.2.params.names ++ d.params.names))

/-- The targets of aliases have the property. -/
def TargetsIn (Q : List String → Ty → Prop) (s : Symbols) : Prop :=
  ∀ key d, s.aliases.get? key = some d → Q d.params.names d.type

/-- All types but the targets of aliases have the property, wherever they are written. -/
structure Types (Q : Ty → Prop) (s : Symbols) : Prop where
  structs : ∀ key d, s.structs.get? key = some d → ∀ f ∈ d.fields, Q f.type
  enums : ∀ key d, s.enums.get? key = some d → ∀ v ∈ d.variants, ∀ t ∈ v.data.types, Q t
  statics : ∀ key t, s.statics.get? key = some t → Q t
  functions : ∀ key f, s.functions.get? key = some f → f.Types Q
  impls : ∀ d ∈ s.impls, Q d.selfType ∧ ∀ m ∈ d.methods, m.2.Types Q

/-- The targets of aliases have the property. -/
def Targets (Q : Ty → Prop) (s : Symbols) : Prop := ∀ key d, s.aliases.get? key = some d → Q d.type

theorem types_iff {Q : Ty → Prop} {s : Symbols} : s.Types Q ↔ s.TypesIn fun _ => Q :=
  ⟨fun h => ⟨h.structs, h.enums, h.statics, h.functions, h.impls⟩,
    fun h => ⟨h.structs, h.enums, h.statics, h.functions, h.impls⟩⟩

end Symbols

section
variable {Q : List String → Ty → Prop}

/-- All that is written there are types with the property that the scope asks for, or no types. -/
def Place.OfType (Q : List String → Ty → Prop) (pl : Place) : Prop :=
  pl.phrase.OfType (Q pl.scope.generics)

theorem Place.forall_ofType {phrases : List Phrase} {names : List String} :
    (∀ pl ∈ phrases.map (mk (Scope.empty.withGenerics names)), pl.OfType Q) ↔
      ∀ a ∈ phrases, a.OfType (Q names) :=
  forall_withGenerics (R := fun names => Phrase.OfType (Q names))

theorem ImplBlock.signature_types {d : ImplBlock} (h : ∀ pl ∈ d.places .empty, pl.OfType Q) :
    Q d.params.names d.signature.selfType ∧
      ∀ m ∈ d.signature.methods, m.2.Types (Q (m.2.params.names ++ d.params.names)) := by
  have hhead := Place.forall_ofType.mp (List.forall_mem_append.mp h).1
  refine ⟨hhead _ (List.mem_append_right _ (.head _)), fun m hm => ?_⟩
  obtain ⟨item, hitem, hmethod⟩ := List.mem_filterMap.mp hm
  cases hmember : item.member with
  | function body =>
    simp only [hmember, Option.some.injEq] at hmethod
    subst hmethod
    have hbody : body ∈ d.items.filterMap (·.function?) :=
      List.mem_filterMap.mpr ⟨item, hitem, by rw [ImplItem.function?, hmember]⟩
    exact Function.signature_types
      (ImplBlock.function_phrases (R := fun names => Phrase.OfType (Q names)) h body hbody)
  | const _ _ | type _ => simp [hmember] at hmethod

end

namespace Symbols
variable {Q : List String → Ty → Prop}

theorem types_empty : empty.TypesIn Q := ⟨nofun, nofun, nofun, nofun, List.forall_mem_nil _⟩

theorem forall_get?_insert {α : Type} {R : α → Prop} {t : Table α} {key : Key} {value : α}
    (h : ∀ k v, t.get? k = some v → R v) (hv : R value) :
    ∀ k v, (t.insert key value).get? k = some v → R v := by
  intro k v hk
  rw [Table.get?_insert] at hk
  split_ifs at hk
  · exact Option.some.inj hk ▸ hv
  · exact h k v hk

mutual

theorem collect_types : ∀ (m : Module) {parents : List String} {s : Symbols},
    (∀ pl ∈ m.places, pl.OfType Q) → s.TypesIn Q ∧ s.TargetsIn Q →
      (collect parents s m).TypesIn Q ∧ (collect parents s m).TargetsIn Q
  | ⟨_, _, items⟩, parents, s, hm, h => by
    rw [collect]
    exact collectItems_types items (List.forall_mem_append.mp hm).2 h

theorem collectItems_types : ∀ (items : List Item) {parents : List String} {s : Symbols},
    (∀ pl ∈ itemPlaces items, pl.OfType Q) → s.TypesIn Q ∧ s.TargetsIn Q →
      (collectItems parents s items).TypesIn Q ∧ (collectItems parents s items).TargetsIn Q
  | [], parents, s, _, h => h
  | .function d :: items, parents, s, hi, ⟨ht, ha⟩ => by
    obtain ⟨hd, hi⟩ := List.forall_mem_append.mp hi
    have hsig := Function.signature_types (Place.forall_ofType.mp hd)
    exact collectItems_types items hi
      ⟨{ ht with functions := forall_get?_insert ht.functions hsig }, ha⟩
  | .struct d :: items, parents, s, hi, ⟨ht, ha⟩ => by
    obtain ⟨hd, hi⟩ := List.forall_mem_append.mp hi
    have hfields := StructDef.fields_types (Place.forall_ofType.mp hd)
    exact collectItems_types items hi
      ⟨{ ht with structs := forall_get?_insert ht.structs hfields }, ha⟩
  | .enum d :: items, parents, s, hi, ⟨ht, ha⟩ => by
    obtain ⟨hd, hi⟩ := List.forall_mem_append.mp hi
    have hvariants := EnumDef.variants_types (Place.forall_ofType.mp hd)
    exact collectItems_types items hi
      ⟨{ ht with enums := forall_get?_insert ht.enums hvariants }, ha⟩
  | .traitDef d :: items, parents, s, hi, h =>
    collectItems_types items (List.forall_mem_append.mp hi).2 h
  | .impl d :: items, parents, s, hi, ⟨ht, ha⟩ => by
    obtain ⟨hd, hi⟩ := List.forall_mem_append.mp hi
    have himpls := List.forall_mem_append.mpr
      ⟨ht.impls, List.forall_mem_singleton.mpr (ImplBlock.signature_types hd)⟩
    exact collectItems_types items hi ⟨{ ht with impls := himpls }, ha⟩
  | .static d :: items, parents, s, hi, ⟨ht, ha⟩ => by
    obtain ⟨hd, hi⟩ := List.forall_mem_append.mp hi
    have hphrases : ∀ a ∈ d.phrases, a.OfType (Q []) := fun a ha => hd _ (List.mem_map_of_mem ha)
    have htype := StaticDef.static_type hphrases
    exact collectItems_types items hi
      ⟨{ ht with statics := forall_get?_insert ht.statics htype }, ha⟩
  | .typeAlias d :: items, parents, s, hi, ⟨ht, ha⟩ => by
    obtain ⟨hd, hi⟩ := List.forall_mem_append.mp hi
    have htarget := AliasDef.target_type (Place.forall_ofType.mp hd)
    exact collectItems_types items hi ⟨{ ht with }, forall_get?_insert ha htarget⟩
  | .module m :: items, parents, s, hi, h => by
    obtain ⟨hm, hi⟩ := List.forall_mem_append.mp hi
    exact collectItems_types items hi (collect_types m hm h)

end

end Symbols

theorem Aliases.params_of_expandSignature {aliases : Aliases} {span : Span} {f f' : Signature}
    (h : aliases.expandSignature span f = .ok f') : f'.params = f.params := by
  simp only [expandSignature, Result.bind_eq_ok, Result.pure_eq_ok] at h
  obtain ⟨_, -, _, -, rfl⟩ := h
  rfl

namespace Symbols
variable {s s' : Symbols}

theorem aliases_of_expandAliases (h : s.expandAliases = .ok s') : s'.aliases = s.aliases := by
  simp only [expandAliases, Result.bind_eq_ok, Result.pure_eq_ok] at h
  obtain ⟨_, -, _, -, _, -, _, -, _, -, rfl⟩ := h
  rfl

section
variable {Q Q' : Ty → Prop} (hexpand : ∀ span t u, Q t → s.aliases.expand span t = .ok u → Q' u)
include hexpand

theorem expandField_type {f f' : Field} (hf : Q f.type) (h : s.aliases.expandField f = .ok f') :
    Q' f'.type := by
  simp only [Aliases.expandField, Result.bind_eq_ok, Result.pure_eq_ok] at h
  obtain ⟨type, ht, rfl⟩ := h
  exact hexpand _ _ _ hf ht

theorem expandVariant_types {v v' : Variant} (hv : ∀ t ∈ v.data.types, Q t)
    (h : s.aliases.expandVariant v = .ok v') : ∀ t ∈ v'.data.types, Q' t := by
  unfold Aliases.expandVariant at h
  split at h
  · next hd =>
    cases h
    rw [hd]
    exact List.forall_mem_nil _
  · next types hd =>
    simp only [Result.bind_eq_ok, Result.pure_eq_ok] at h
    obtain ⟨types', ht, rfl⟩ := h
    rw [hd] at hv
    exact Result.forall_of_mapM ht hv fun t u => hexpand _ t u
  · next declared hd =>
    simp only [Result.bind_eq_ok, Result.pure_eq_ok] at h
    obtain ⟨declared', hf, rfl⟩ := h
    rw [hd] at hv
    refine List.forall_mem_map.mpr (Result.forall_of_mapM hf (List.forall_mem_map.mp hv) ?_)
    exact fun f f' => expandField_type hexpand

theorem expandSignature_types {span : Span} {f f' : Signature} (hf : f.Types Q)
    (h : s.aliases.expandSignature span f = .ok f') : f'.Types Q' := by
  simp only [Aliases.expandSignature, Result.bind_eq_ok, Result.pure_eq_ok] at h
  obtain ⟨args, ha, ret, hr, rfl⟩ := h
  exact ⟨Result.forall_of_mapM ha hf.args fun t u => hexpand _ t u, hexpand _ _ _ hf.ret hr⟩

end

/-- The expansion of aliases makes types of the one kind into types of the other. -/
theorem TypesIn.expandAliases {Q Q' : List String → Ty → Prop} (h : s.TypesIn Q)
    (hexpand : ∀ names span t u, Q names t → s.aliases.expand span t = .ok u → Q' names u)
    (he : s.expandAliases = .ok s') : s'.TypesIn Q' := by
  simp only [Symbols.expandAliases, Result.bind_eq_ok, Result.pure_eq_ok] at he
  obtain ⟨structs, hs, enums, hen, statics, hst, functions, hf, impls, hi, rfl⟩ := he
  refine ⟨fun key d' hd' => ?_, fun key d' hd' => ?_, fun key t' ht' => ?_,
    fun key f' hf' => ?_, ?_⟩
  · obtain ⟨d, hd, hdd⟩ := Table.get?_of_mapValuesM hs hd'
    simp only [Aliases.expandStruct, Result.bind_eq_ok, Result.pure_eq_ok] at hdd
    obtain ⟨fields, hfields, rfl⟩ := hdd
    exact Result.forall_of_mapM hfields (h.structs key d hd)
      fun f f' => expandField_type (hexpand _)
  · obtain ⟨d, hd, hdd⟩ := Table.get?_of_mapValuesM hen hd'
    simp only [Aliases.expandEnum, Result.bind_eq_ok, Result.pure_eq_ok] at hdd
    obtain ⟨variants, hv, rfl⟩ := hdd
    exact Result.forall_of_mapM hv (h.enums key d hd) fun v v' => expandVariant_types (hexpand _)
  · obtain ⟨t, ht, htt⟩ := Table.get?_of_mapValuesM hst ht'
    exact hexpand _ _ _ _ (h.statics key t ht) htt
  · obtain ⟨f, hff, hfe⟩ := Table.get?_of_mapValuesM hf hf'
    rw [Aliases.params_of_expandSignature hfe]
    exact expandSignature_types (hexpand _) (h.functions key f hff) hfe
  · refine Result.forall_of_mapM hi h.impls fun d d' hd hdd => ?_
    simp only [Aliases.expandImpl, Result.bind_eq_ok, Result.pure_eq_ok] at hdd
    obtain ⟨selfType, ht, methods, hm, rfl⟩ := hdd
    refine ⟨hexpand _ _ _ _ hd.1 ht, Result.forall_of_mapM hm hd.2 fun m m' hmt hmm => ?_⟩
    simp only [Result.bind_eq_ok, Result.pure_eq_ok] at hmm
    obtain ⟨f', hf', rfl⟩ := hmm
    rw [Aliases.params_of_expandSignature hf']
    exact expandSignature_types (hexpand _) hmt hf'

theorem Types.expandAliases {Q Q' : Ty → Prop} (h : s.Types Q)
    (hexpand : ∀ span t u, Q t → s.aliases.expand span t = .ok u → Q' u)
    (he : s.expandAliases = .ok s') : s'.Types Q' :=
  types_iff.mpr (TypesIn.expandAliases (types_iff.mp h) (fun _ => hexpand) he)

end Symbols
end BorrowLang
