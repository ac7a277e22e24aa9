import BorrowLang.Check.Expr
import BorrowLang.Proofs.SymbolTypes
import BorrowLang.Proofs.TypeProperties

/-!
Types that a program declares, in the places where a check takes them over. The parameters of an item
are given the arguments of a value there, or wildcards, so what a property of types needs to hold of
them all is that such an instance of a declared type has it.
-/
namespace BorrowLang

/-- The path is bound to something that values are made with, a struct or a variant. The arguments
that are written in such a path are those of the value. -/
def Path.Constructs (p : Path) : Prop :=
  match p.binding with
  | .structType _ | .variant .. => True
  | _ => False

namespace Symbols

/-- Types with the property `Q` come of the declared ones, which have `D` with the parameters that
they may mention, as soon as the parameters are given types with `Q`. -/
structure Declares (s : Symbols) (P : Binding → Prop) (D : List String → Ty → Prop)
    (Q : Ty → Prop) : Prop where
  compositional : Ty.Compositional P Q
  owner : ∀ key, P (.structType key) ∧ P (.enumType key)
  types : s.TypesIn D
  instantiate : ∀ names args t, D names t → (∀ u ∈ args, Q u) →
    Q (t.substitute (.ofArgs names args))
  closed : ∀ t, D [] t → Q t

section
variable {s : Symbols} {P : Binding → Prop} {D : List String → Ty → Prop} {Q : Ty → Prop}
  (h : s.Declares P D Q) {t u : Ty} {span : Span}
include h

theorem Declares.fieldType {key : Key} {args : List Ty} {name : String} (ha : ∀ v ∈ args, Q v)
    (hu : s.fieldType key args name span = .ok u) : Q u := by
  simp only [Symbols.fieldType, Result.bind_eq_ok, Table.find_eq_ok] at hu
  obtain ⟨d, hd, hu⟩ := hu
  split at hu
  · next f hf =>
    obtain rfl := Except.ok.inj hu
    exact h.instantiate _ _ _ (h.types.structs key d hd f (List.mem_of_find?_eq_some hf)) ha
  · contradiction

theorem Declares.memberType {name : String} (ht : Q t)
    (hu : s.memberType t name span = .ok u) : Q u := by
  unfold Symbols.memberType at hu
  split at hu
  · next p hs =>
    have hp := (h.compositional.path.mp (hs ▸ h.compositional.stripped ht)).2
    split at hu
    · exact h.fieldType hp.lastArgs hu
    · contradiction
  · contradiction

/-! ### Patterns -/

theorem Declares.fieldPart {params : Params} {args : List Ty} {declared : Ty}
    (ha : ∀ v ∈ args, Q v) (hd : D params.names declared) : Q (t.fieldPart params args declared) :=
  h.compositional.behind (h.instantiate _ _ _ hd ha) _

theorem Declares.variant_types {enumKey : Key} {index : Nat} {d : EnumDef} {v : Variant}
    (hv : s.variant enumKey index span = .ok (d, v)) : ∀ t ∈ v.data.types, D d.params.names t := by
  obtain ⟨hd, hv⟩ := Symbols.variant_eq_ok.mp hv
  exact h.types.enums enumKey d hd v (List.mem_of_getElem? hv)

theorem Declares.variantParts {path : Path} {n : Nat} {parts : List Ty} (ht : Q t)
    (hp : s.variantParts path n t span = .ok parts) : ∀ u ∈ parts, Q u := by
  unfold Symbols.variantParts at hp
  split at hp
  · simp only [Result.bind_eq_ok] at hp
    obtain ⟨⟨d, v⟩, hv, hp⟩ := hp
    dsimp only at hp
    split at hp
    · contradiction
    · next types hpos =>
      split_ifs at hp
      · contradiction
      · simp only [Result.bind_eq_ok, Result.pure_eq_ok] at hp
        obtain ⟨args, hargs, rfl⟩ := hp
        obtain rfl := VariantData.positional?_types hpos
        have hgiven := h.compositional.argsOf ht hargs
        exact List.forall_mem_map.mpr fun u hu => h.fieldPart hgiven (h.variant_types hv u hu)
  · contradiction

theorem Declares.fieldOwner {path : Path} {owner : Key} {params : Params} {fields : List Field}
    (ho : s.fieldOwner path span = .ok (owner, params, fields)) :
    ∀ f ∈ fields, D params.names f.type := by
  unfold Symbols.fieldOwner at ho
  split at ho
  · next key _ =>
    simp only [Result.bind_eq_ok, Table.find_eq_ok, Result.pure_eq_ok, Prod.mk.injEq] at ho
    obtain ⟨d, hd, -, rfl, rfl⟩ := ho
    exact h.types.structs key d hd
  · next enumKey index _ =>
    simp only [Result.bind_eq_ok, Table.find_eq_ok] at ho
    obtain ⟨d, hd, ho⟩ := ho
    split at ho
    · next name found variantSpan hv =>
      simp only [Result.pure_eq_ok, Prod.mk.injEq] at ho
      obtain ⟨-, rfl, rfl⟩ := ho
      exact fun f hf => h.types.enums enumKey d hd _ (List.mem_of_getElem? hv) _
        (List.mem_map_of_mem hf)
    · contradiction
  · contradiction

theorem Declares.namedParts {path : Path} {parts : List (String × Ty)} (ht : Q t)
    (hp : s.namedParts path t span = .ok parts) : ∀ part ∈ parts, Q part.2 := by
  simp only [Symbols.namedParts, Result.bind_eq_ok, Result.pure_eq_ok] at hp
  obtain ⟨⟨owner, params, fields⟩, ho, args, hargs, rfl⟩ := hp
  have hgiven := h.compositional.argsOf ht hargs
  exact List.forall_mem_map.mpr fun f hf => h.fieldPart hgiven (h.fieldOwner ho f hf)

end

/-! ### Methods -/

section
variable {s : Symbols} {Q : Ty → Prop} (h : s.Types Q)
include h

theorem Types.methodOf? {traitPath : Option Path} {t : Ty} {name : String}
    {found : ImplSignature × Signature} (hf : s.methodOf? traitPath t name = some found) :
    found.2.Types Q := by
  simp only [Symbols.methodOf?, Option.bind_eq_bind, Option.bind_eq_some_iff] at hf
  obtain ⟨d, hd, signature, hs, hpair⟩ := hf
  cases hpair
  exact (h.impls d (List.mem_of_find?_eq_some hd)).2 _ (mem_of_lookup_eq_some hs)

theorem Types.methodAt? {traits : List Path} {t : Ty} {name : String}
    {found : ImplSignature × Signature} (hf : s.methodAt? traits t name = some found) :
    found.2.Types Q := by
  unfold Symbols.methodAt? at hf
  rcases (Option.orElse_eq_some _ _ _).mp hf with hf | ⟨-, hf⟩
  · exact h.methodOf? hf
  · obtain ⟨p, -, hp⟩ := List.exists_of_findSome?_eq_some hf
    exact h.methodOf? hp

end

end Symbols

/-! ### Named values and calls -/

namespace EnumDef
variable {P : Binding → Prop} {Q : Ty → Prop} (hQ : Ty.Compositional P Q) {d : EnumDef} {p : Path}
  {span : Span} {args args' : List Ty}
include hQ

theorem args_have (hp : p.ArgsHave Q) (h : d.args p span = .ok args) : ∀ t ∈ args, Q t := by
  unfold EnumDef.args at h
  dsimp only at h
  split_ifs at h
  obtain rfl := Except.ok.inj h
  exact hQ.resize _ hp.enumArgs

theorem refineArg_have {found : String × Ty} (hf : Q found.2) (ha : ∀ t ∈ args, Q t)
    (h : d.refineArg span args found = .ok args') : ∀ t ∈ args', Q t := by
  unfold refineArg at h
  dsimp only at h
  split at h
  · contradiction
  · next i _ =>
    simp only [Result.bind_eq_ok, Result.pure_eq_ok] at h
    obtain ⟨merged, hm, rfl⟩ := h
    have hold : Q (args[i]?.getD .wildcard) := by
      cases hi : args[i]? with
      | none => exact hQ.wildcard
      | some u => exact ha u (List.mem_of_getElem? hi)
    intro u hu
    rcases List.mem_or_eq_of_mem_set hu with hu | rfl
    · exact ha u hu
    · exact hQ.mergeAt hold hf hm

theorem refineArgs_have {field : Ty × Ty} (hf : Q field.2) (ha : ∀ t ∈ args, Q t)
    (h : d.refineArgs span args field = .ok args') : ∀ t ∈ args', Q t := by
  simp only [refineArgs, Result.bind_eq_ok] at h
  obtain ⟨found, hfound, h⟩ := h
  refine Result.forall_of_foldlM (fun m hm b c hb hc => refineArg_have hQ ?_ hb hc) ha h
  unfold Ty.matchTemplateAt at hfound
  split at hfound
  · next hmatch =>
    obtain rfl := Except.ok.inj hfound
    exact hQ.matchTemplate? hf (Ty.matchTemplate_eq_ok_iff.mp hmatch) m hm
  · contradiction

end EnumDef

namespace Symbols

section
variable {s : Symbols} {P : Binding → Prop} {D : List String → Ty → Prop} {Q : Ty → Prop}
  (h : s.Declares P D Q) {u : Ty} {p : Path} {span : Span}
include h

theorem Declares.enumType (hp : p.ArgsHave Q) (enumKey : Key) {args : List Ty}
    (ha : ∀ t ∈ args, Q t) : Q (p.enumType enumKey args) :=
  h.compositional.path.mpr ⟨(h.owner enumKey).2, hp.parent.withLastArgs ha⟩

theorem Declares.variantType {found : List Ty} (hf : ∀ t ∈ found, Q t) (hp : p.ArgsHave Q)
    {enumKey : Key} {index : Nat} (hu : s.variantType p enumKey index found span = .ok u) : Q u := by
  obtain ⟨d, v, templates, written, args, -, -, -, -, hwritten, hargs, rfl⟩ :=
    Symbols.exists_of_variantType hu
  have hrefined : ∀ t ∈ args, Q t := by
    refine Result.forall_of_foldlM (R := fun args => ∀ t ∈ args, Q t) ?_
      (EnumDef.args_have h.compositional hp hwritten) hargs
    exact fun field hfield b c hb =>
      EnumDef.refineArgs_have h.compositional (hf _ (List.of_mem_zip hfield).2) hb
  exact h.enumType hp _ hrefined

theorem Declares.valueType (hp : p.Constructs → p.ArgsHave Q)
    (hu : s.valueType p span = .ok u) : Q u := by
  unfold Symbols.valueType at hu
  split at hu
  · next key _ => exact h.closed u (h.types.statics key u (Table.find_eq_ok.mp hu))
  · next hb =>
    have hp := hp (by simp only [Path.Constructs, hb])
    simp only [Result.bind_eq_ok] at hu
    obtain ⟨⟨d, v⟩, -, hu⟩ := hu
    dsimp only at hu
    split at hu
    · simp only [Result.bind_eq_ok, Result.pure_eq_ok] at hu
      obtain ⟨args, hargs, rfl⟩ := hu
      exact h.enumType hp _ (EnumDef.args_have h.compositional hp hargs)
    · contradiction
  · next key hb =>
    have hp := hp (by simp only [Path.Constructs, hb])
    simp only [Result.bind_eq_ok] at hu
    obtain ⟨d, -, hu⟩ := hu
    split_ifs at hu
    · contradiction
    · obtain rfl := Except.ok.inj hu
      have hargs := h.compositional.resize d.params.names.length hp.lastArgs
      exact h.compositional.path.mpr ⟨hb ▸ (h.owner key).1, hp.withLastArgs hargs⟩
  · contradiction
  · contradiction

theorem Declares.callType {found : List Ty} (hf : ∀ t ∈ found, Q t)
    (hp : p.Constructs → p.ArgsHave Q) (hu : s.callType p found span = .ok u) : Q u := by
  obtain ⟨key, f, -, hfound, hparams, -, -, rfl⟩ | ⟨enumKey, index, hb, hu⟩ :=
    Symbols.callType_eq_ok.mp hu
  · -- A function that is called has no parameters of its own.
    have hret := (h.types.functions key f hfound).ret
    rw [hparams] at hret
    exact h.closed _ hret
  · exact h.variantType hf (hp (by simp only [Path.Constructs, hb])) hu

end

end Symbols
end BorrowLang
