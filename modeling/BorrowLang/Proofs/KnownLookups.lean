import Mathlib.Data.Option.Basic
import BorrowLang.Proofs.DeclaredTypes
import BorrowLang.Proofs.KnownSymbols

/-! Whatever is asked of closed symbols for a path or a type that names only what is there is
found, and the types in the answer name only what is there. -/
namespace BorrowLang
open Result
namespace Ty
variable {P : Binding → Prop} {t : Ty} (ht : t.AllBindings P)
include ht

theorem AllBindings.element : t.element.AllBindings P := (compositional_allBindings P).element ht

theorem AllBindings.behind (kind : Option BorrowKind) : (t.behind kind).AllBindings P :=
  (compositional_allBindings P).behind ht kind

theorem finds_argsOf (owner : Key) (span : Span) :
    (t.argsOf owner span).Finds fun args => ∀ u ∈ args, u.AllBindings P := by
  unfold argsOf
  split
  · exact List.forall_mem_nil _
  · next p hs =>
    have hp := ht.stripped
    rw [hs, allBindings_path] at hp
    split_ifs
    · exact Path.lastArgs_allBindings hp.2
    · exact id
  · exact id

theorem finds_tupleParts (n : Nat) (span : Span) :
    (t.tupleParts n span).Finds fun parts => ∀ u ∈ parts, u.AllBindings P := by
  unfold tupleParts
  split
  · exact fun u hu => List.eq_of_mem_replicate hu ▸ allBindings_wildcard
  · split_ifs
    · exact List.forall_mem_nil _
    · exact id
  · split_ifs
    · exact allBindings_tuple.mp ht
    · exact id
  · exact id

theorem finds_referencePart (span : Span) : (t.referencePart span).Finds (AllBindings P) := by
  unfold referencePart
  split
  · exact allBindings_wildcard
  · exact ht
  · exact id

end Ty

theorem Ty.fieldPart_allBindings {P : Binding → Prop} {params : Params} {args : List Ty}
    {t declared : Ty} (ha : ∀ u ∈ args, u.AllBindings P) (hd : declared.AllBindings P) :
    (t.fieldPart params args declared).AllBindings P :=
  (hd.substitute (Substitution.allBindings_ofArgs _ ha)).behind _

namespace Symbols
variable {s : Symbols} (h : s.Closed)
include h

theorem Closed.variant_types {enumKey : Key} {d : EnumDef} {v : Variant}
    (hd : s.enums.get? enumKey = some d) (hv : v ∈ d.variants) : ∀ t ∈ v.data.types, t.Known s :=
  h.types.enums enumKey d hd v hv

theorem Closed.finds_variant {enumKey : Key} {index : Nat}
    (hb : (Binding.variant enumKey index).Known s) (span : Span) :
    (s.variant enumKey index span).Finds fun found =>
      (s.enums.get? enumKey).isSome ∧ ∀ t ∈ found.2.data.types, t.Known s := by
  obtain ⟨d, hd, -⟩ := hb
  have hsome : (s.enums.get? enumKey).isSome := hd ▸ rfl
  refine (Table.find_finds hsome fun _ => id).bind fun e he => ?_
  split
  · next v hv => exact ⟨hsome, h.variant_types he (List.mem_of_getElem? hv)⟩
  · exact id

theorem Closed.finds_fieldType {key : Key} {args : List Ty} (hk : (s.structs.get? key).isSome)
    (ha : ∀ t ∈ args, t.Known s) (name : String) (span : Span) :
    (s.fieldType key args name span).Finds (Ty.Known s) := by
  refine (Table.find_finds hk fun _ => id).bind fun d hd => ?_
  split
  · next f hf =>
    exact (h.types.structs key d hd f (List.mem_of_find?_eq_some hf)).substitute
      (Substitution.allBindings_ofArgs _ ha)
  · exact id

theorem Closed.finds_memberType {t : Ty} (ht : t.Known s) (name : String) (span : Span) :
    (s.memberType t name span).Finds (Ty.Known s) := by
  unfold memberType
  split
  · next p hs =>
    have hp := ht.stripped
    rw [hs, Ty.allBindings_path] at hp
    split
    · next key hb =>
      rw [hb] at hp
      exact h.finds_fieldType hp.1 (Path.lastArgs_allBindings hp.2) name span
    · exact id
  · exact id

end Symbols

namespace Symbols
variable {s : Symbols} (h : s.Closed) {path : Path} (hb : path.binding.Known s)
include h hb

theorem Closed.finds_variantParts {t : Ty} (ht : t.Known s) (n : Nat) (span : Span) :
    (s.variantParts path n t span).Finds fun parts => ∀ u ∈ parts, u.Known s := by
  unfold variantParts
  split
  · next enumKey index hp =>
    rw [hp] at hb
    refine (h.finds_variant hb span).bind fun (d, v) hfound => ?_
    dsimp only
    split
    · exact id
    · next types hpos =>
      obtain rfl := VariantData.positional?_types hpos
      split_ifs
      · exact id
      · refine (Ty.finds_argsOf ht enumKey span).bind fun args ha => ?_
        exact List.forall_mem_map.mpr fun u hu => Ty.fieldPart_allBindings ha (hfound.2 u hu)
  · exact id

theorem Closed.finds_fieldOwner (span : Span) :
    (s.fieldOwner path span).Finds fun found => ∀ f ∈ found.2.2, f.type.Known s := by
  unfold fieldOwner
  split
  · next key hp =>
    rw [hp] at hb
    exact (Table.find_finds hb fun _ => id).bind fun d hd => h.types.structs key d hd
  · next enumKey index hp =>
    rw [hp] at hb
    obtain ⟨d, hd, -⟩ := hb
    refine (Table.find_finds (hd ▸ rfl) fun _ => id).bind fun e he => ?_
    split
    · next name fields variantSpan hv =>
      exact fun f hf => h.variant_types he (List.mem_of_getElem? hv) _ (List.mem_map_of_mem hf)
    · exact id
  · exact id

theorem Closed.finds_namedParts {t : Ty} (ht : t.Known s) (span : Span) :
    (s.namedParts path t span).Finds fun parts => ∀ part ∈ parts, part.2.Known s := by
  refine (h.finds_fieldOwner hb span).bind fun found hf => ?_
  refine (Ty.finds_argsOf ht found.1 span).bind fun args ha => ?_
  exact List.forall_mem_map.mpr fun f hff => Ty.fieldPart_allBindings ha (hf f hff)

end Symbols

/-! ### Named values and calls -/

section
variable {P : Binding → Prop}

theorem Ty.resize_allBindings (n : Nat) {ts : List Ty} (h : ∀ t ∈ ts, t.AllBindings P) :
    ∀ t ∈ Ty.resize n ts, t.AllBindings P := (Ty.compositional_allBindings P).resize n h

namespace Path
variable {p : Path} (hp : Ty.SegmentsBindings P p.segments)
include hp

theorem enumArgs_allBindings : ∀ t ∈ p.enumArgs, t.AllBindings P := ArgsHave.enumArgs hp

theorem withLastArgs_bindings {args : List Ty} (ha : ∀ t ∈ args, t.AllBindings P) :
    Ty.SegmentsBindings P (p.withLastArgs args).segments := ArgsHave.withLastArgs hp ha

theorem enumType_allBindings {enumKey : Key} (hk : P (.enumType enumKey)) {args : List Ty}
    (ha : ∀ t ∈ args, t.AllBindings P) : (p.enumType enumKey args).AllBindings P := by
  have hparent : Ty.SegmentsBindings P p.parent.segments :=
    fun segment hs => hp segment (List.dropLast_subset _ hs)
  exact Ty.allBindings_path.mpr ⟨hk, withLastArgs_bindings hparent ha⟩

end Path

namespace EnumDef
variable (d : EnumDef) (span : Span)

theorem finds_args {p : Path} (hp : Ty.SegmentsBindings P p.segments) :
    (d.args p span).Finds fun args => ∀ t ∈ args, t.AllBindings P := by
  unfold args
  dsimp only
  split_ifs
  · exact id
  · exact Ty.resize_allBindings _ (Path.enumArgs_allBindings hp)

theorem finds_refineArg {found : String × Ty} (hf : found.2.AllBindings P) {args : List Ty}
    (ha : ∀ t ∈ args, t.AllBindings P) :
    (d.refineArg span args found).Finds fun args => ∀ t ∈ args, t.AllBindings P := by
  obtain ⟨name, t⟩ := found
  unfold refineArg
  dsimp only
  split
  · exact id
  · next i _ =>
    have hold : (args[i]?.getD .wildcard).AllBindings P := by
      cases hi : args[i]? with
      | none => exact Ty.allBindings_wildcard
      | some u => exact ha u (List.mem_of_getElem? hi)
    refine (Ty.finds_mergeAt hold hf span).bind fun merged hm u hu => ?_
    rcases List.mem_or_eq_of_mem_set hu with hu | rfl
    · exact ha u hu
    · exact hm

theorem finds_refineArgs {field : Ty × Ty} (hf : field.2.AllBindings P) {args : List Ty}
    (ha : ∀ t ∈ args, t.AllBindings P) :
    (d.refineArgs span args field).Finds fun args => ∀ t ∈ args, t.AllBindings P := by
  refine (Ty.finds_matchTemplateAt hf span).bind fun found hfound => ?_
  exact finds_foldlM (fun m hm args ha => d.finds_refineArg span (hfound m hm) ha) ha

end EnumDef
end

namespace Symbols
variable {s : Symbols} (h : s.Closed) {path : Path}
  (hp : (Ty.path path).Known s) (span : Span)
include h hp

theorem Closed.finds_valueType : (s.valueType path span).Finds (Ty.Known s) := by
  obtain ⟨hb, hsegments⟩ := Ty.allBindings_path.mp hp
  unfold valueType
  split
  · next key hpath =>
    rw [hpath] at hb
    exact Table.find_finds hb (h.types.statics key)
  · next enumKey index hpath =>
    rw [hpath] at hb
    refine (h.finds_variant hb span).bind fun (d, v) hfound => ?_
    dsimp only
    split
    · exact (d.finds_args span hsegments).bind fun args ha =>
        Path.enumType_allBindings hsegments hfound.1 ha
    · exact id
  · next key hpath =>
    have hstruct := hpath ▸ hb
    refine (Table.find_finds hstruct fun _ => id).bind fun d _ => ?_
    dsimp only
    split_ifs
    · exact id
    · have hargs :=
        Ty.resize_allBindings d.params.names.length (Path.lastArgs_allBindings hsegments)
      exact Ty.allBindings_path.mpr ⟨hb, Path.withLastArgs_bindings hsegments hargs⟩
  · exact id
  · exact id

variable {found : List Ty} (hf : ∀ t ∈ found, t.Known s)
include hf

theorem Closed.finds_variantType {enumKey : Key} {index : Nat}
    (hb : (Binding.variant enumKey index).Known s) :
    (s.variantType path enumKey index found span).Finds (Ty.Known s) := by
  have hsegments := (Ty.allBindings_path.mp hp).2
  refine (h.finds_variant hb span).bind fun (d, v) hvariant => ?_
  dsimp only
  split
  · exact id
  · next templates hpos =>
    split_ifs
    · exact id
    · refine (d.finds_args span hsegments).bind fun args ha => ?_
      refine Result.Finds.bind (finds_foldlM (fun field hfield args ha => ?_) ha)
        fun refined hr => Path.enumType_allBindings hsegments hvariant.1 hr
      exact d.finds_refineArgs span (hf _ (List.of_mem_zip hfield).2) ha

theorem Closed.finds_callType : (s.callType path found span).Finds (Ty.Known s) := by
  have hb := (Ty.allBindings_path.mp hp).1
  unfold callType
  split
  · next key hpath =>
    rw [hpath] at hb
    refine (Table.find_finds hb fun _ => id).bind fun f hfound => ?_
    dsimp only
    split
    · exact id
    · split
      · exact id
      · exact (h.types.functions key f hfound).ret
  · next enumKey index hpath =>
    rw [hpath] at hb
    exact h.finds_variantType hp span hf hb
  · exact id
  · exact id

end Symbols

/-! ### Methods -/

section
variable {P : Binding → Prop}

theorem ImplSignature.bindSelf?_allBindings {d : ImplSignature} {t : Ty} {sub : Substitution}
    (ht : t.AllBindings P) (h : d.bindSelf? t = some sub) : ∀ e ∈ sub, e.2.AllBindings P :=
  (Ty.compositional_allBindings P).bindSelf? ht h

end

/-- The types that decide what the candidate returns. -/
structure Candidate.Known (s : Symbols) (c : Candidate) : Prop where
  signature : c.signature.Types (Ty.Known s)
  receiver : c.receiver.Known s

theorem Candidate.Known.ret {s : Symbols} {c : Candidate} (h : c.Known s) : c.ret.Known s := by
  refine h.signature.ret.substitute ?_
  cases hb : c.impl.bindSelf? c.receiver with
  | none => exact List.forall_mem_nil _
  | some sub => exact ImplSignature.bindSelf?_allBindings h.receiver hb

theorem Candidate.finds_checkArity (c : Candidate) (method : Segment) (given : Nat) (span : Span) :
    (c.checkArity method given span).Finds fun _ => True := by
  unfold checkArity
  dsimp only
  split_ifs <;> first | exact id | exact trivial

namespace Symbols
variable {s : Symbols} (h : s.Closed)
include h

theorem Closed.finds_searchMethod {traits : List Path} {name : String} {missing unknown : Error}
    (hm : ¬ missing.MissesItem) (hu : ¬ unknown.MissesItem) {ts : List Ty}
    (ht : ∀ t ∈ ts, t.Known s) (derefs : Nat) :
    (s.searchMethod traits name missing unknown derefs ts).Finds (Candidate.Known s) := by
  induction ts generalizing derefs with
  | nil => exact hm
  | cons t ts ih =>
    obtain ⟨hfirst, hrest⟩ := List.forall_mem_cons.mp ht
    unfold searchMethod
    split_ifs
    · exact hu
    · split
      · next d signature hf => exact ⟨h.types.methodAt? hf, hfirst⟩
      · exact ih hrest (derefs + 1)

end Symbols
end BorrowLang
