import BorrowLang.Proofs.Rebinding

/-!
Items and programs whose names are bound a second time. What `Self` stands for is carried into
methods, where more names are known, so it has to resolve where it is written; then the second run
changes nothing.
-/
namespace BorrowLang
namespace Names

mutual

/-- In the self types of the impl blocks of a module, those of nested modules among them, every path
names an item or a type parameter. -/
def SelfTypesResolve (cx : Context) : Module → Prop
  | ⟨_, uses, items⟩ => ∀ bound inside, bindUses cx uses = .ok (bound, inside) →
    AllSelfTypesResolve inside items

def SelfTypeResolves (cx : Context) : Item → Prop
  | .impl d => ∀ p ∈ d.selfType.paths, (cx.withGenerics d.params.names).Resolves p
  | .module m => SelfTypesResolve (cx.enter m.name) m
  | .function _ | .struct _ | .enum _ | .traitDef _ | .static _ | .typeAlias _ => True

def AllSelfTypesResolve (cx : Context) : List Item → Prop
  | [] => True
  | i :: is => SelfTypeResolves cx i ∧ AllSelfTypesResolve cx is

end

theorem span_of_bindExpr {cx : Context} {e e' : Expr} (he : bindExpr cx e = .ok e') :
    e'.span = e.span := by
  obtain ⟨kind, type, span⟩ := e
  simp only [bindExpr, Result.bind_eq_ok, Result.pure_eq_ok] at he
  obtain ⟨_, -, rfl⟩ := he
  rfl

section
variable {cx : Context} (h : cx.Steady)
include h

theorem bindBound_again {b b' : Bound} (hb : bindBound cx b = .ok b') : bindBound cx b' = .ok b' := by
  cases b with
  | isTrait type traitPath span =>
    simp only [bindBound, Result.bind_eq_ok, Result.pure_eq_ok] at hb
    obtain ⟨type', ht, path', hp, rfl⟩ := hb
    rw [bindBound, bindType_again h ht, bindPath_again h hp]
    rfl
  | lifetime type lifetime =>
    simp only [bindBound, Result.bind_eq_ok, Result.pure_eq_ok] at hb
    obtain ⟨type', ht, rfl⟩ := hb
    rw [bindBound, bindType_again h ht]
    rfl

theorem bindParams_again {params params' : Params} (hp : bindParams cx params = .ok params') :
    params'.names = params.names ∧ bindParams cx params' = .ok params' := by
  simp only [bindParams, Result.bind_eq_ok, Result.pure_eq_ok] at hp
  obtain ⟨bounds, hb, rfl⟩ := hp
  refine ⟨rfl, ?_⟩
  rw [bindParams, mapM_again (fun _ _ => bindBound_again (h.withGenerics params.names)) hb]
  rfl

theorem bindFields_again {fields bound : List Field} (hb : bindFields cx fields = .ok bound) :
    bindFields cx bound = .ok bound := by
  refine mapM_again (fun f f' hf => ?_) hb
  simp only [Result.bind_eq_ok, Result.pure_eq_ok] at hf
  obtain ⟨type, ht, rfl⟩ := hf
  simp only [bindType_again h ht]
  rfl

theorem bindVariant_again {v v' : Variant} (hv : bindVariant cx v = .ok v') :
    bindVariant cx v' = .ok v' := by
  obtain ⟨name, data, span⟩ := v
  cases data with
  | value discriminant =>
    simp only [bindVariant, Result.bind_eq_ok, Result.pure_eq_ok] at hv
    obtain ⟨bound, hb, rfl⟩ := hv
    simp only [bindVariant, bindOption_again h discriminant hb]
    rfl
  | tuple types =>
    simp only [bindVariant, Result.bind_eq_ok, Result.pure_eq_ok] at hv
    obtain ⟨bound, hb, rfl⟩ := hv
    simp only [bindVariant, bindTypes_again h hb]
    rfl
  | fields fields =>
    simp only [bindVariant, Result.bind_eq_ok, Result.pure_eq_ok] at hv
    obtain ⟨bound, hb, rfl⟩ := hv
    simp only [bindVariant, bindFields_again h hb]
    rfl

theorem bindFunction_again {d d' : Function} (hd : bindFunction cx d = .ok d') :
    bindFunction cx d' = .ok d' := by
  simp only [bindFunction, Result.bind_eq_ok, Result.pure_eq_ok] at hd
  obtain ⟨params, hp, args, ha, ret, hr, code, hc, rfl⟩ := hd
  obtain ⟨hnames, hparams⟩ := bindParams_again h hp
  have hinside := h.withGenerics d.params.names
  have hargs := mapM_again (fun a a' harg => ?_) ha
  · simp only [bindFunction, hparams, hnames]
    simp only [bind, Except.bind] at hargs ⊢
    rw [hargs, bindType_again hinside hr]
    simp only [bindOption_again hinside d.code hc]
    rfl
  · simp only [Result.bind_eq_ok, Result.pure_eq_ok] at harg
    obtain ⟨type, ht, pattern, hpat, rfl⟩ := harg
    simp only [bindType_again hinside ht, bindPattern_again hinside a.pattern hpat]
    rfl

theorem bindTrait_again {d d' : TraitDef} (hd : bindTrait cx d = .ok d') :
    bindTrait cx d' = .ok d' := by
  simp only [bindTrait, Result.bind_eq_ok, Result.pure_eq_ok] at hd
  obtain ⟨params, hp, methods, hm, rfl⟩ := hd
  obtain ⟨hnames, hparams⟩ := bindParams_again h hp
  have hmethods := mapM_again (fun _ _ => bindFunction_again (h.withGenerics d.params.names)) hm
  simp only [bindTrait, hparams, hnames, hmethods]
  rfl

theorem bindStruct_again {d d' : StructDef} (hd : bindStruct cx d = .ok d') :
    bindStruct cx d' = .ok d' := by
  simp only [bindStruct, Result.bind_eq_ok, Result.pure_eq_ok] at hd
  obtain ⟨params, hp, fields, hf, rfl⟩ := hd
  obtain ⟨hnames, hparams⟩ := bindParams_again h hp
  simp only [bindStruct, hparams, hnames, bindFields_again (h.withGenerics d.params.names) hf]
  rfl

theorem bindEnum_again {d d' : EnumDef} (hd : bindEnum cx d = .ok d') :
    bindEnum cx d' = .ok d' := by
  simp only [bindEnum, Result.bind_eq_ok, Result.pure_eq_ok] at hd
  obtain ⟨params, hp, variants, hv, rfl⟩ := hd
  obtain ⟨hnames, hparams⟩ := bindParams_again h hp
  have hvariants := mapM_again (fun _ _ => bindVariant_again (h.withGenerics d.params.names)) hv
  simp only [bindEnum, hparams, hnames, hvariants]
  rfl

theorem bindStatic_again {d d' : StaticDef} (hd : bindStatic cx d = .ok d') :
    bindStatic cx d' = .ok d' := by
  simp only [bindStatic, Result.bind_eq_ok, Result.pure_eq_ok] at hd
  obtain ⟨type, ht, value, hv, rfl⟩ := hd
  simp only [bindStatic, bindType_again h ht, bindExpr_again h d.value hv]
  rfl

theorem bindAlias_again {d d' : AliasDef} (hd : bindAlias cx d = .ok d') :
    bindAlias cx d' = .ok d' := by
  simp only [bindAlias, Result.bind_eq_ok, Result.pure_eq_ok] at hd
  obtain ⟨params, hp, type, ht, rfl⟩ := hd
  obtain ⟨hnames, hparams⟩ := bindParams_again h hp
  simp only [bindAlias, hparams, hnames, bindType_again (h.withGenerics d.params.names) ht]
  rfl

theorem bindMember_again {span : Span} {m m' : Member} (hm : bindMember cx span m = .ok m') :
    bindMember cx span m' = .ok m' := by
  cases m with
  | function body =>
    simp only [bindMember, Result.bind_eq_ok, Result.pure_eq_ok] at hm
    obtain ⟨body', hb, rfl⟩ := hm
    rw [bindMember, bindFunction_again h hb]
    rfl
  | const type value =>
    simp only [bindMember, Result.bind_eq_ok, Result.pure_eq_ok] at hm
    obtain ⟨type', ht, value', hv, rfl⟩ := hm
    -- The type is bound under the span of the value, which stays.
    have hspan := span_of_bindExpr hv
    rw [bindMember, hspan, bindType_again h ht, bindExpr_again h value hv]
    rfl
  | type target =>
    simp only [bindMember, Result.bind_eq_ok, Result.pure_eq_ok] at hm
    obtain ⟨target', ht, rfl⟩ := hm
    rw [bindMember, bindType_again h ht]
    rfl

/-- `Self` stands for the same type in the second run. -/
theorem bindImpl_again {d d' : ImplBlock}
    (hresolves : ∀ p ∈ d.selfType.paths, (cx.withGenerics d.params.names).Resolves p)
    (hd : bindImpl cx d = .ok d') : bindImpl cx d' = .ok d' := by
  simp only [bindImpl, Result.bind_eq_ok, Result.pure_eq_ok] at hd
  obtain ⟨params, hp, selfType, hs, traitPath, ht, items, hi, rfl⟩ := hd
  obtain ⟨hnames, hparams⟩ := bindParams_again h hp
  have hinside := h.withGenerics d.params.names
  have hindexed := indexed_of_bindType hinside hresolves hs
  have hitems := mapM_again (fun item item' hitem => ?_) hi
  · simp only [bindImpl, hparams, hnames]
    simp only [bind, Except.bind] at hitems ⊢
    simp only [bindType_again hinside hs,
      optionMapM_again (fun _ _ => bindPath_again hinside) ht, hitems]
    rfl
  · simp only [Result.bind_eq_ok, Result.pure_eq_ok] at hitem
    obtain ⟨member, hm, rfl⟩ := hitem
    simp only [bindMember_again (hinside.withSelf hindexed) hm]
    rfl

/-- The imports of the second run are those of the first. -/
theorem bindUses_again {uses uses' : List Path} {inside : Context}
    (hu : bindUses cx uses = .ok (uses', inside)) :
    bindUses cx uses' = .ok (uses', inside) ∧ inside.Steady := by
  induction uses generalizing cx uses' with
  | nil =>
    cases hu
    exact ⟨rfl, h⟩
  | cons p ps ih =>
    simp only [bindUses, Result.bind_eq_ok, Result.pure_eq_ok, Prod.mk.injEq] at hu
    obtain ⟨q, hq, ⟨qs, inside⟩, hqs, rfl, rfl⟩ := hu
    have hnext : Context.Steady { cx with
        imports := q.names.getLast?.toList.map (·, q.names) ++ cx.imports } := by
      refine ⟨List.forall_mem_append.mpr ⟨?_, h.imports⟩, h.selfType⟩
      simp
    obtain ⟨hagain, hsteady⟩ := ih hnext hqs
    refine ⟨?_, hsteady⟩
    simp only [bindUses, bindPath_again h hq]
    simp only [bind, Except.bind, hagain]
    rfl

end

mutual

theorem bindModule_again : ∀ (m : Module) {cx : Context} {m' : Module}, cx.Steady →
    SelfTypesResolve cx m → bindModule cx m = .ok m' → bindModule cx m' = .ok m'
  | ⟨name, uses, items⟩, cx, m', h, hresolve, hm => by
    simp only [bindModule, Result.bind_eq_ok, Result.pure_eq_ok] at hm
    obtain ⟨⟨uses', inside⟩, hu, items', hi, rfl⟩ := hm
    obtain ⟨huses, hinside⟩ := bindUses_again h hu
    have hitems := bindItems_again items hinside (hresolve _ _ hu) hi
    simp only [bindModule, huses, bind, Except.bind, hitems]
    rfl

theorem bindItem_again : ∀ (i : Item) {cx : Context} {i' : Item}, cx.Steady →
    SelfTypeResolves cx i → bindItem cx i = .ok i' → bindItem cx i' = .ok i'
  | .function d, cx, i', h, hresolve, hi => by
    simp only [bindItem, Result.bind_eq_ok, Result.pure_eq_ok] at hi
    obtain ⟨d', hd, rfl⟩ := hi
    rw [bindItem, bindFunction_again h hd]
    rfl
  | .struct d, cx, i', h, hresolve, hi => by
    simp only [bindItem, Result.bind_eq_ok, Result.pure_eq_ok] at hi
    obtain ⟨d', hd, rfl⟩ := hi
    rw [bindItem, bindStruct_again h hd]
    rfl
  | .enum d, cx, i', h, hresolve, hi => by
    simp only [bindItem, Result.bind_eq_ok, Result.pure_eq_ok] at hi
    obtain ⟨d', hd, rfl⟩ := hi
    rw [bindItem, bindEnum_again h hd]
    rfl
  | .traitDef d, cx, i', h, hresolve, hi => by
    simp only [bindItem, Result.bind_eq_ok, Result.pure_eq_ok] at hi
    obtain ⟨d', hd, rfl⟩ := hi
    rw [bindItem, bindTrait_again h hd]
    rfl
  | .impl d, cx, i', h, hresolve, hi => by
    simp only [bindItem, Result.bind_eq_ok, Result.pure_eq_ok] at hi
    obtain ⟨d', hd, rfl⟩ := hi
    rw [bindItem, bindImpl_again h hresolve hd]
    rfl
  | .static d, cx, i', h, hresolve, hi => by
    simp only [bindItem, Result.bind_eq_ok, Result.pure_eq_ok] at hi
    obtain ⟨d', hd, rfl⟩ := hi
    rw [bindItem, bindStatic_again h hd]
    rfl
  | .typeAlias d, cx, i', h, hresolve, hi => by
    simp only [bindItem, Result.bind_eq_ok, Result.pure_eq_ok] at hi
    obtain ⟨d', hd, rfl⟩ := hi
    rw [bindItem, bindAlias_again h hd]
    rfl
  | .module m, cx, i', h, hresolve, hi => by
    simp only [bindItem, Result.bind_eq_ok, Result.pure_eq_ok] at hi
    obtain ⟨m', hm, rfl⟩ := hi
    rw [bindItem, (bindModule_entries m hm).1,
      bindModule_again m (h.enter m.name) hresolve hm]
    rfl

theorem bindItems_again : ∀ (is : List Item) {cx : Context} {is' : List Item}, cx.Steady →
    AllSelfTypesResolve cx is → bindItems cx is = .ok is' → bindItems cx is' = .ok is'
  | [], cx, is', h, hresolve, his => by
    cases his
    rfl
  | i :: is, cx, is', h, ⟨hi, his⟩, hb => by
    simp only [bindItems, Result.bind_eq_ok, Result.pure_eq_ok] at hb
    obtain ⟨i', hbi, is', hbis, rfl⟩ := hb
    rw [bindItems, bindItem_again i h hi hbi, bindItems_again is h his hbis]
    rfl

end

end Names

namespace Module

/-- Every path in the self type of an impl block of the program names an item or a type
parameter. -/
def SelfTypesResolve (root : Module) : Prop :=
  Names.SelfTypesResolve ⟨.ofModule root, [], [], [], none⟩ root

/-- A program whose names are bound stays as it is when they are bound again. -/
theorem bindNames_bindNames {source root : Module} (hself : source.SelfTypesResolve)
    (h : source.bindNames = .ok root) : root.bindNames = .ok root := by
  have hindex : Index.ofModule root = Index.ofModule source :=
    congrArg Index.mk ((Names.bindModule_entries source h).2 [])
  rw [bindNames, hindex]
  refine Names.bindModule_again source ⟨List.forall_mem_nil _, ?_⟩ hself h
  rintro _ ⟨⟩

/-- In source form,
`use geo::Shape;`
`mod geo { struct Holder<T> { held: T } enum Shape { Dot }`
`impl<U> Holder<U> { fn get(self: Self) -> U { self.held } } }`
`fn pick(s: Shape) -> _ { type Local = Shape; let t: Local = s; t }`. -/
def gallery : Module :=
  let plain : Params := ⟨[], []⟩
  let raw (kind : ExprKind) : Expr := ⟨kind, .wildcard, default⟩
  let named (name : String) : Expr := raw (.named (.bare name))
  let bare (name : String) : Ty := .path (.bare name)
  let arg (name : String) (type : Ty) : FunctionArg := ⟨.identifier name .immutable default, type⟩
  let get : Function := ⟨"get", plain, [arg "self" (bare "Self")], bare "U",
    some (raw (.field (named "self") "held")), default⟩
  let keep : Expr :=
    raw (.letIn (.identifier "t" .immutable default) (bare "Local") (named "s"))
  let pick : Function := ⟨"pick", plain, [arg "s" (bare "Shape")], .wildcard,
    some (raw (.block ⟨[keep], some (named "t"), [], [("Local", bare "Shape")]⟩)), default⟩
  let geo : Module := ⟨"geo", [], [
    .struct ⟨"Holder", ⟨["T"], []⟩, [⟨"held", bare "T", default⟩], default⟩,
    .enum ⟨"Shape", plain, [⟨"Dot", .value none, default⟩], default⟩,
    .impl ⟨⟨["U"], []⟩, none, .path ⟨false, [⟨"Holder", [bare "U"]⟩], .unbound⟩,
      [⟨"get", .function get⟩], default⟩]⟩
  ⟨"", [.ofNames false ["geo", "Shape"]], [.module geo, .function pick]⟩

/-- The first run makes the path of the import absolute, a parameter of `U` and `Holder<U>` of
`Self`, and leaves `Local`. -/
theorem bindNames_bindNames_gallery : gallery.SelfTypesResolve ∧
    ∃ root, gallery.bindNames = .ok root ∧ root.bindNames = .ok root := by
  have hself : gallery.SelfTypesResolve := by
    intro bound inside huses
    cases huses
    refine ⟨?_, trivial, trivial⟩
    intro bound inside huses
    cases huses
    refine ⟨trivial, trivial, ?_, trivial⟩
    exact List.forall_mem_cons.mpr ⟨.inr rfl, List.forall_mem_singleton.mpr
      (.inl ⟨"U", rfl, .head _⟩)⟩
  exact ⟨hself, _, rfl, bindNames_bindNames hself rfl⟩

end Module
end BorrowLang
