import BorrowLang.Proofs.Binding

/-! The binding of names walks over every type and path of a program and binds each in its scope. -/
namespace BorrowLang
namespace Phrase

def Unbound (a : Phrase) : Prop := ∀ p ∈ a.paths, p.binding = .unbound

instance (a : Phrase) : Decidable a.Unbound :=
  inferInstanceAs (Decidable (∀ p ∈ a.paths, p.binding = .unbound))

/-- What a phrase becomes. Relative values of at most one segment are locals, and they, the
annotations of expressions and the types behind numbers are not looked at. -/
inductive BindsTo (scope : Scope) : Phrase → Phrase → Prop
  | type {t u : Ty} : t.BindsTo scope u → BindsTo scope (type t) (type u)
  | item {p q : Path} : Ty.PathBinds scope p q → BindsTo scope (item p) (item q)
  | value {p q : Path} : p.absolute = true ∨ 1 < p.segments.length → Ty.PathBinds scope p q →
    BindsTo scope (value p) (value q)
  | localValue {p : Path} : p.absolute = false → p.segments.length ≤ 1 →
    BindsTo scope (value p) (value p)
  | annotated (t : Ty) : BindsTo scope (annotated t) (annotated t)
  | suffix (t : Ty) : BindsTo scope (suffix t) (suffix t)

/-- All that is looked at names an item, or is a bare name of a type that is left for the blocks
around it. -/
def Settled (s : Symbols) : Phrase → Prop
  | type t => t.Settled s
  | item p => p.Denotes s ∧ ∀ q ∈ p.argPaths, q.Settled s
  | value p => p.absolute = false ∧ p.segments.length ≤ 1 ∨
    p.Denotes s ∧ ∀ q ∈ p.argPaths, q.Settled s
  | annotated _ | suffix _ => True

/-- The second phrase is what the first becomes, and it is settled unless there were bindings
before. -/
structure Becomes (s : Symbols) (scope : Scope) (a b : Phrase) : Prop where
  binds : a.BindsTo scope b
  settled : a.Unbound → b.Settled s

variable {s : Symbols} {scope : Scope}

theorem becomes_annotated (t : Ty) : Becomes s scope (annotated t) (annotated t) :=
  ⟨.annotated t, fun _ => trivial⟩

theorem becomes_suffix (t : Ty) : Becomes s scope (suffix t) (suffix t) :=
  ⟨.suffix t, fun _ => trivial⟩

end Phrase

namespace Names
variable {cx : Context} {s : Symbols}
open List (Forall₂)

theorem literal_becomes (scope : Scope) (value : Literal) :
    Forall₂ (Phrase.Becomes s scope) value.phrases value.phrases := by
  refine List.forall₂_same.mpr fun a ha => ?_
  cases value with
  | int _ suffix | float _ suffix =>
    cases suffix with
    | none => cases ha
    | some t => exact List.mem_singleton.mp ha ▸ Phrase.becomes_suffix t
  | _ => cases ha

section
variable (h : cx.Sound s) {span : Span}
include h

theorem type_becomes {t u : Ty} (hu : bindType cx span t = .ok u) :
    (Phrase.type t).Becomes s cx.scope (.type u) :=
  have hspec := bindType_spec h t hu
  ⟨.type hspec.1, hspec.2⟩

theorem types_become {ts us : List Ty} (hus : bindTypes cx span ts = .ok us) :
    Forall₂ (Phrase.Becomes s cx.scope) (ts.map .type) (us.map .type) := by
  induction ts generalizing us with
  | nil =>
    cases hus
    exact .nil
  | cons t ts ih =>
    simp only [bindTypes, Result.bind_eq_ok, Result.pure_eq_ok] at hus
    obtain ⟨u, hu, us, hus, rfl⟩ := hus
    exact .cons (type_becomes h hu) (ih hus)

theorem bindPath_spec {p q : Path} (hq : bindPath cx span p = .ok q) :
    Ty.PathBinds cx.scope p q ∧ ((∀ r ∈ p.argPaths, r.binding = .unbound) →
      q.Denotes s ∧ ∀ r ∈ q.argPaths, r.Settled s) := by
  obtain ⟨absolute, segments, b⟩ := p
  simp only [bindPath, Result.bind_eq_ok] at hq
  obtain ⟨bound, hs, hq⟩ := hq
  obtain ⟨hsegments, hsettled⟩ := bindSegments_spec h _ hs
  split at hq
  · next hf =>
    cases hq
    refine ⟨.mk _ _ hsegments, fun hun => ⟨h.denotes hf, ?_⟩⟩
    rw [argPaths_absolutize]
    exact hsettled hun
  · contradiction

theorem item_becomes {p q : Path} (hq : bindPath cx span p = .ok q) :
    (Phrase.item p).Becomes s cx.scope (.item q) := by
  obtain ⟨hb, hs⟩ := bindPath_spec h hq
  exact ⟨.item hb, fun hun => hs (List.forall_mem_cons.mp hun).2⟩

theorem named_becomes {p q : Path} (hq : bindNamed cx span p = .ok q) :
    (Phrase.value p).Becomes s cx.scope (.value q) := by
  unfold bindNamed at hq
  split_ifs at hq with hp
  · rw [Bool.or_eq_true, decide_eq_true_eq] at hp
    obtain ⟨hb, hs⟩ := bindPath_spec h hq
    exact ⟨.value hp hb, fun hun => .inr (hs (List.forall_mem_cons.mp hun).2)⟩
  · rw [Bool.or_eq_true, decide_eq_true_eq, not_or, Bool.not_eq_true, Nat.not_lt] at hp
    cases hq
    exact ⟨.localValue hp.1 hp.2, fun _ => .inl hp⟩

end

mutual

theorem pattern_becomes (h : cx.Sound s) : ∀ (p : Pattern) {q : Pattern}, bindPattern cx p = .ok q →
    Forall₂ (Phrase.Becomes s cx.scope) p.phrases q.phrases
  | .tuple items span, q, hq => by
    simp only [bindPattern, Result.bind_eq_ok, Result.pure_eq_ok] at hq
    obtain ⟨items, hi, rfl⟩ := hq
    exact patterns_become h _ hi
  | .reference inner span, q, hq => by
    simp only [bindPattern, Result.bind_eq_ok, Result.pure_eq_ok] at hq
    obtain ⟨bound, hi, rfl⟩ := hq
    have hinner := pattern_becomes h inner hi
    exact hinner
  | .variant path items span, q, hq => by
    simp only [bindPattern, Result.bind_eq_ok, Result.pure_eq_ok] at hq
    obtain ⟨path, hp, items, hi, rfl⟩ := hq
    exact .cons (item_becomes h hp) (patterns_become h _ hi)
  | .fields path fields span, q, hq => by
    simp only [bindPattern, Result.bind_eq_ok, Result.pure_eq_ok] at hq
    obtain ⟨path, hp, fields, hf, rfl⟩ := hq
    exact .cons (item_becomes h hp) (fieldPatterns_become h _ hf)
  | .wildcard span, q, hq => by
    cases hq
    exact .nil
  | .identifier name mutability span, q, hq => by
    cases hq
    exact .nil
  | .literal value span, q, hq => by
    cases hq
    exact literal_becomes cx.scope value
termination_by structural p => p

theorem patterns_become (h : cx.Sound s) : ∀ (ps : List Pattern) {qs : List Pattern},
    bindPatterns cx ps = .ok qs →
      Forall₂ (Phrase.Becomes s cx.scope) (patternPhrases ps) (patternPhrases qs)
  | [], qs, hqs => by
    cases hqs
    exact .nil
  | p :: ps, qs, hqs => by
    simp only [bindPatterns, Result.bind_eq_ok, Result.pure_eq_ok] at hqs
    obtain ⟨q, hq, qs, hqs, rfl⟩ := hqs
    exact List.rel_append (pattern_becomes h p hq) (patterns_become h ps hqs)
termination_by structural ps => ps

theorem fieldPatterns_become (h : cx.Sound s) : ∀ (fields : List (String × Pattern))
    {bound : List (String × Pattern)}, bindFieldPatterns cx fields = .ok bound →
      Forall₂ (Phrase.Becomes s cx.scope) (fieldPatternPhrases fields) (fieldPatternPhrases bound)
  | [], bound, hb => by
    cases hb
    exact .nil
  | (name, p) :: rest, bound, hb => by
    simp only [bindFieldPatterns, Result.bind_eq_ok, Result.pure_eq_ok] at hb
    obtain ⟨q, hq, rest', hr, rfl⟩ := hb
    exact List.rel_append (pattern_becomes h p hq) (fieldPatterns_become h rest hr)
termination_by structural fields => fields

end

theorem aliases_become (h : cx.Sound s) {span : Span} {aliases bound : List (String × Ty)}
    (hb : bindAliases cx span aliases = .ok bound) : Forall₂ (Phrase.Becomes s cx.scope)
      (aliases.map fun a => .type a.2) (bound.map fun a => .type a.2) := by
  rw [List.forall₂_map_left_iff, List.forall₂_map_right_iff]
  refine (Result.mapM_eq_ok.mp hb).imp fun a b hab => ?_
  simp only [Result.bind_eq_ok, Result.pure_eq_ok] at hab
  obtain ⟨t, ht, rfl⟩ := hab
  exact type_becomes h ht

theorem items_become (h : cx.Sound s) {span : Span} {paths bound : List Path}
    (hb : paths.mapM (bindPath cx span) = .ok bound) : Forall₂ (Phrase.Becomes s cx.scope)
      (paths.map .item) (bound.map .item) := by
  rw [List.forall₂_map_left_iff, List.forall₂_map_right_iff]
  exact (Result.mapM_eq_ok.mp hb).imp fun p q hpq => item_becomes h hpq

mutual

theorem expr_becomes (h : cx.Sound s) : ∀ (e : Expr) {e' : Expr}, bindExpr cx e = .ok e' →
    Forall₂ (Phrase.Becomes s cx.scope) e.phrases e'.phrases
  | ⟨kind, type, span⟩, e', he => by
    simp only [bindExpr, Result.bind_eq_ok, Result.pure_eq_ok] at he
    obtain ⟨bound, hk, rfl⟩ := he
    exact .cons (Phrase.becomes_annotated type) (kind_becomes h kind hk)
termination_by structural e => e

theorem kind_becomes (h : cx.Sound s) {span : Span} : ∀ (kind : ExprKind) {bound : ExprKind},
    bindKind cx span kind = .ok bound →
      Forall₂ (Phrase.Becomes s cx.scope) kind.phrases bound.phrases
  | .block ⟨statements, tail, traits, aliases⟩, bound, hb => by
    simp only [bindKind, Result.bind_eq_ok, Result.pure_eq_ok] at hb
    obtain ⟨traits', ht, aliases', ha, statements', hs, tail', htail, rfl⟩ := hb
    have hopen := List.rel_append (items_become h ht) (aliases_become h ha)
    exact List.rel_append (List.rel_append hopen (exprs_become h statements hs))
      (option_becomes h tail htail)
  | .letIn pattern type value, bound, hb => by
    simp only [bindKind, Result.bind_eq_ok, Result.pure_eq_ok] at hb
    obtain ⟨type', ht, pattern', hp, value', hv, rfl⟩ := hb
    exact .cons (type_becomes h ht) (List.rel_append (pattern_becomes h pattern hp)
      (expr_becomes h value hv))
  | .assign place value, bound, hb => by
    simp only [bindKind, Result.bind_eq_ok, Result.pure_eq_ok] at hb
    obtain ⟨place', hp, value', hv, rfl⟩ := hb
    exact List.rel_append (expr_becomes h place hp) (expr_becomes h value hv)
  | .ret value, bound, hb => by
    simp only [bindKind, Result.bind_eq_ok, Result.pure_eq_ok] at hb
    obtain ⟨value', hv, rfl⟩ := hb
    exact option_becomes h value hv
  | .cond condition thenBranch elseBranch, bound, hb => by
    simp only [bindKind, Result.bind_eq_ok, Result.pure_eq_ok] at hb
    obtain ⟨condition', hc, thenBranch', ht, elseBranch', he, rfl⟩ := hb
    exact List.rel_append (List.rel_append (expr_becomes h condition hc)
      (expr_becomes h thenBranch ht)) (option_becomes h elseBranch he)
  | .matchOn value arms, bound, hb => by
    simp only [bindKind, Result.bind_eq_ok, Result.pure_eq_ok] at hb
    obtain ⟨value', hv, arms', ha, rfl⟩ := hb
    exact List.rel_append (expr_becomes h value hv) (arms_become h arms ha)
  | .callPath path args, bound, hb => by
    simp only [bindKind, Result.bind_eq_ok, Result.pure_eq_ok] at hb
    obtain ⟨path', hp, args', ha, rfl⟩ := hb
    exact .cons (item_becomes h hp) (exprs_become h args ha)
  | .callMethod receiver ⟨name, types⟩ args, bound, hb => by
    simp only [bindKind, Result.bind_eq_ok, Result.pure_eq_ok] at hb
    obtain ⟨types', ht, receiver', hr, args', ha, rfl⟩ := hb
    exact List.rel_append (List.rel_append (types_become h ht) (expr_becomes h receiver hr))
      (exprs_become h args ha)
  | .callValue callee args, bound, hb => by
    simp only [bindKind, Result.bind_eq_ok, Result.pure_eq_ok] at hb
    obtain ⟨callee', hc, args', ha, rfl⟩ := hb
    exact List.rel_append (expr_becomes h callee hc) (exprs_become h args ha)
  | .named path, bound, hb => by
    simp only [bindKind, Result.bind_eq_ok, Result.pure_eq_ok] at hb
    obtain ⟨path', hp, rfl⟩ := hb
    exact .cons (named_becomes h hp) .nil
  | .field object name, bound, hb => by
    simp only [bindKind, Result.bind_eq_ok, Result.pure_eq_ok] at hb
    obtain ⟨object', ho, rfl⟩ := hb
    exact expr_becomes h object ho
  | .index value index, bound, hb => by
    simp only [bindKind, Result.bind_eq_ok, Result.pure_eq_ok] at hb
    obtain ⟨value', hv, index', hi, rfl⟩ := hb
    exact List.rel_append (expr_becomes h value hv) (expr_becomes h index hi)
  | .deref value, bound, hb => by
    simp only [bindKind, Result.bind_eq_ok, Result.pure_eq_ok] at hb
    obtain ⟨value', hv, rfl⟩ := hb
    exact expr_becomes h value hv
  | .borrow kind value, bound, hb => by
    simp only [bindKind, Result.bind_eq_ok, Result.pure_eq_ok] at hb
    obtain ⟨value', hv, rfl⟩ := hb
    exact expr_becomes h value hv
  | .cast value target, bound, hb => by
    simp only [bindKind, Result.bind_eq_ok, Result.pure_eq_ok] at hb
    obtain ⟨target', ht, value', hv, rfl⟩ := hb
    exact .cons (type_becomes h ht) (expr_becomes h value hv)
  | .tuple items, bound, hb => by
    simp only [bindKind, Result.bind_eq_ok, Result.pure_eq_ok] at hb
    obtain ⟨items', hi, rfl⟩ := hb
    exact exprs_become h items hi
  | .literal value, bound, hb => by
    cases hb
    exact literal_becomes cx.scope value
  | .binary op left right, bound, hb => by
    simp only [bindKind, Result.bind_eq_ok, Result.pure_eq_ok] at hb
    obtain ⟨left', hl, right', hr, rfl⟩ := hb
    exact List.rel_append (expr_becomes h left hl) (expr_becomes h right hr)
termination_by structural kind => kind

theorem option_becomes (h : cx.Sound s) : ∀ (e : Option Expr) {e' : Option Expr},
    bindOption cx e = .ok e' →
      Forall₂ (Phrase.Becomes s cx.scope) (optionPhrases e) (optionPhrases e')
  | none, e', he => by
    cases he
    exact .nil
  | some e, e', he => by
    simp only [bindOption, Result.bind_eq_ok, Result.pure_eq_ok] at he
    obtain ⟨bound, hb, rfl⟩ := he
    exact expr_becomes h e hb
termination_by structural e => e

theorem exprs_become (h : cx.Sound s) : ∀ (es : List Expr) {es' : List Expr},
    bindExprs cx es = .ok es' →
      Forall₂ (Phrase.Becomes s cx.scope) (exprPhrases es) (exprPhrases es')
  | [], es', hes => by
    cases hes
    exact .nil
  | e :: es, es', hes => by
    simp only [bindExprs, Result.bind_eq_ok, Result.pure_eq_ok] at hes
    obtain ⟨e', he, es', hes, rfl⟩ := hes
    exact List.rel_append (expr_becomes h e he) (exprs_become h es hes)
termination_by structural es => es

theorem arms_become (h : cx.Sound s) : ∀ (arms : List Arm) {arms' : List Arm},
    bindArms cx arms = .ok arms' →
      Forall₂ (Phrase.Becomes s cx.scope) (armPhrases arms) (armPhrases arms')
  | [], arms', ha => by
    cases ha
    exact .nil
  | ⟨patterns, guard, code⟩ :: rest, arms', ha => by
    simp only [bindArms, Result.bind_eq_ok, Result.pure_eq_ok] at ha
    obtain ⟨patterns', hp, guard', hg, code', hc, rest', hr, rfl⟩ := ha
    exact List.rel_append (List.rel_append (List.rel_append (patterns_become h patterns hp)
      (option_becomes h guard hg)) (expr_becomes h code hc)) (arms_become h rest hr)
termination_by structural arms => arms

end

theorem bounds_become (h : cx.Sound s) {bounds bounds' : List Bound}
    (hb : bounds.mapM (bindBound cx) = .ok bounds') : Forall₂ (Phrase.Becomes s cx.scope)
      (bounds.flatMap Bound.phrases) (bounds'.flatMap Bound.phrases) := by
  refine List.rel_flatMap (Result.mapM_eq_ok.mp hb) fun b b' hbb => ?_
  cases b with
  | isTrait type traitPath span =>
    simp only [bindBound, Result.bind_eq_ok, Result.pure_eq_ok] at hbb
    obtain ⟨type', ht, path', hp, rfl⟩ := hbb
    exact .cons (type_becomes h ht) (.cons (item_becomes h hp) .nil)
  | lifetime type lifetime =>
    simp only [bindBound, Result.bind_eq_ok, Result.pure_eq_ok] at hbb
    obtain ⟨type', ht, rfl⟩ := hbb
    exact .cons (type_becomes h ht) .nil

theorem Context.Sound.withGenerics (h : cx.Sound s) (names : List String) :
    (cx.withGenerics names).Sound s := ⟨h.index, h.imports, h.selfType⟩

theorem params_become (h : cx.Sound s) {params params' : Params}
    (hp : bindParams cx params = .ok params') : params'.names = params.names ∧
      Forall₂ (Phrase.Becomes s (cx.withGenerics params.names).scope) params.phrases
        params'.phrases := by
  simp only [bindParams, Result.bind_eq_ok, Result.pure_eq_ok] at hp
  obtain ⟨bounds, hb, rfl⟩ := hp
  exact ⟨rfl, bounds_become (h.withGenerics _) hb⟩

theorem fields_become (h : cx.Sound s) {fields fields' : List Field}
    (hf : bindFields cx fields = .ok fields') : Forall₂ (Phrase.Becomes s cx.scope)
      (fields.flatMap Field.phrases) (fields'.flatMap Field.phrases) := by
  refine List.rel_flatMap (Result.mapM_eq_ok.mp hf) fun f f' hff => ?_
  simp only [Result.bind_eq_ok, Result.pure_eq_ok] at hff
  obtain ⟨type, ht, rfl⟩ := hff
  exact .cons (type_becomes h ht) .nil

theorem variant_becomes (h : cx.Sound s) {v v' : Variant} (hv : bindVariant cx v = .ok v') :
    Forall₂ (Phrase.Becomes s cx.scope) v.data.phrases v'.data.phrases := by
  obtain ⟨name, data, span⟩ := v
  cases data with
  | value discriminant =>
    simp only [bindVariant, Result.bind_eq_ok, Result.pure_eq_ok] at hv
    obtain ⟨discriminant', hd, rfl⟩ := hv
    exact option_becomes h discriminant hd
  | tuple types =>
    simp only [bindVariant, Result.bind_eq_ok, Result.pure_eq_ok] at hv
    obtain ⟨types', ht, rfl⟩ := hv
    exact types_become h ht
  | fields fields =>
    simp only [bindVariant, Result.bind_eq_ok, Result.pure_eq_ok] at hv
    obtain ⟨fields', hf, rfl⟩ := hv
    exact fields_become h hf

theorem arg_becomes (h : cx.Sound s) {span : Span} {a a' : FunctionArg} {type : Ty}
    {pattern : Pattern} (ht : bindType cx span a.type = .ok type)
    (hp : bindPattern cx a.pattern = .ok pattern)
    (ha : a' = { a with type, pattern }) :
    Forall₂ (Phrase.Becomes s cx.scope) a.phrases a'.phrases := by
  subst ha
  exact .cons (type_becomes h ht) (pattern_becomes h _ hp)

theorem function_becomes (h : cx.Sound s) {d d' : Function} (hd : bindFunction cx d = .ok d') :
    d'.params.names = d.params.names ∧
      Forall₂ (Phrase.Becomes s (cx.withGenerics d.params.names).scope) d.phrases d'.phrases := by
  simp only [bindFunction, Result.bind_eq_ok, Result.pure_eq_ok] at hd
  obtain ⟨params, hp, args, ha, ret, hr, code, hc, rfl⟩ := hd
  obtain ⟨hnames, hparams⟩ := params_become h hp
  have hin := h.withGenerics d.params.names
  have hargs := List.rel_flatMap (Result.mapM_eq_ok.mp ha) fun a a' haa => by
    simp only [Result.bind_eq_ok, Result.pure_eq_ok] at haa
    obtain ⟨type, ht, pattern, hpat, rfl⟩ := haa
    exact arg_becomes hin ht hpat rfl
  exact ⟨hnames, List.rel_append (List.rel_append hparams hargs)
    (.cons (type_becomes hin hr) (option_becomes hin _ hc))⟩

theorem struct_becomes (h : cx.Sound s) {d d' : StructDef} (hd : bindStruct cx d = .ok d') :
    d'.params.names = d.params.names ∧
      Forall₂ (Phrase.Becomes s (cx.withGenerics d.params.names).scope) d.phrases d'.phrases := by
  simp only [bindStruct, Result.bind_eq_ok, Result.pure_eq_ok] at hd
  obtain ⟨params, hp, fields, hf, rfl⟩ := hd
  obtain ⟨hnames, hparams⟩ := params_become h hp
  exact ⟨hnames, List.rel_append hparams (fields_become (h.withGenerics _) hf)⟩

theorem enum_becomes (h : cx.Sound s) {d d' : EnumDef} (hd : bindEnum cx d = .ok d') :
    d'.params.names = d.params.names ∧
      Forall₂ (Phrase.Becomes s (cx.withGenerics d.params.names).scope) d.phrases d'.phrases := by
  simp only [bindEnum, Result.bind_eq_ok, Result.pure_eq_ok] at hd
  obtain ⟨params, hp, variants, hv, rfl⟩ := hd
  obtain ⟨hnames, hparams⟩ := params_become h hp
  exact ⟨hnames, List.rel_append hparams (List.rel_flatMap (Result.mapM_eq_ok.mp hv)
    fun v v' hvv => variant_becomes (h.withGenerics _) hvv)⟩

theorem alias_becomes (h : cx.Sound s) {d d' : AliasDef} (hd : bindAlias cx d = .ok d') :
    d'.params.names = d.params.names ∧
      Forall₂ (Phrase.Becomes s (cx.withGenerics d.params.names).scope) d.phrases d'.phrases := by
  simp only [bindAlias, Result.bind_eq_ok, Result.pure_eq_ok] at hd
  obtain ⟨params, hp, type, ht, rfl⟩ := hd
  obtain ⟨hnames, hparams⟩ := params_become h hp
  exact ⟨hnames, List.rel_append hparams (.cons (type_becomes (h.withGenerics _) ht) .nil)⟩

theorem static_becomes (h : cx.Sound s) {d d' : StaticDef} (hd : bindStatic cx d = .ok d') :
    Forall₂ (Phrase.Becomes s cx.scope) d.phrases d'.phrases := by
  simp only [bindStatic, Result.bind_eq_ok, Result.pure_eq_ok] at hd
  obtain ⟨type, ht, value, hv, rfl⟩ := hd
  exact .cons (type_becomes h ht) (expr_becomes h _ hv)

end Names

/-- The same place, with what is written there bound. -/
structure Place.Becomes (s : Symbols) (a b : Place) : Prop where
  generics : b.scope.generics = a.scope.generics
  phrase : a.phrase.Becomes s b.scope b.phrase

namespace Names
variable {cx : Context} {s : Symbols} {scope : Scope}
open List (Forall₂)

theorem places_become {bound : Scope} (hs : bound.generics = scope.generics) {as bs : List Phrase}
    (h : Forall₂ (Phrase.Becomes s bound) as bs) :
    Forall₂ (Place.Becomes s) (as.map (.mk scope)) (bs.map (.mk bound)) := by
  rw [List.forall₂_map_left_iff, List.forall₂_map_right_iff]
  exact h.imp fun a b hab => ⟨hs, hab⟩

theorem functionPlaces_become (h : cx.Sound s) (hs : cx.generics = scope.generics)
    {d d' : Function} (hd : bindFunction cx d = .ok d') :
    Forall₂ (Place.Becomes s) (d.places scope) (d'.places cx.scope) := by
  obtain ⟨hnames, hphrases⟩ := function_becomes h hd
  rw [Function.places, Function.places, hnames]
  exact places_become (congrArg (d.params.names ++ ·) hs) hphrases

theorem memberPlaces_become (h : cx.Sound s) (hs : cx.generics = scope.generics) {span : Span}
    {m m' : Member} (hm : bindMember cx span m = .ok m') :
    Forall₂ (Place.Becomes s) (m.places scope) (m'.places cx.scope) := by
  cases m with
  | function body =>
    simp only [bindMember, Result.bind_eq_ok, Result.pure_eq_ok] at hm
    obtain ⟨body', hb, rfl⟩ := hm
    exact functionPlaces_become h hs hb
  | const type value =>
    simp only [bindMember, Result.bind_eq_ok, Result.pure_eq_ok] at hm
    obtain ⟨type', ht, value', hv, rfl⟩ := hm
    exact places_become hs (.cons (type_becomes h ht) (expr_becomes h _ hv))
  | type target =>
    simp only [bindMember, Result.bind_eq_ok, Result.pure_eq_ok] at hm
    obtain ⟨target', ht, rfl⟩ := hm
    exact .cons ⟨hs, type_becomes h ht⟩ .nil

theorem traitPlaces_become (h : cx.Sound s) {d d' : TraitDef} (hd : bindTrait cx d = .ok d') :
    Forall₂ (Place.Becomes s) (d.places cx.scope) (d'.places cx.scope) := by
  simp only [bindTrait, Result.bind_eq_ok, Result.pure_eq_ok] at hd
  obtain ⟨params, hp, methods, hm, rfl⟩ := hd
  obtain ⟨hnames, hparams⟩ := params_become h hp
  rw [TraitDef.places, TraitDef.places, hnames]
  exact List.rel_append (places_become rfl hparams) (List.rel_flatMap (Result.mapM_eq_ok.mp hm)
    fun f f' hf => functionPlaces_become (h.withGenerics _) rfl hf)

/-- `Self` is the bound self type in the items of the block. -/
theorem implPlaces_become (h : cx.Sound s) {d d' : ImplBlock} (hd : bindImpl cx d = .ok d')
    (hun : d.selfType.Unbound) :
    Forall₂ (Place.Becomes s) (d.places cx.scope) (d'.places cx.scope) := by
  simp only [bindImpl, Result.bind_eq_ok, Result.pure_eq_ok] at hd
  obtain ⟨params, hp, selfType, ht, traitPath, htr, items, hi, rfl⟩ := hd
  obtain ⟨hnames, hparams⟩ := params_become h hp
  have hin := h.withGenerics d.params.names
  have hself := type_becomes hin ht
  have hitems : ((cx.withGenerics d.params.names).withSelf selfType).Sound s :=
    ⟨hin.index, hin.imports, fun t htt => Option.some.inj htt ▸ hself.settled hun⟩
  have htrait : Forall₂ (Phrase.Becomes s (cx.withGenerics d.params.names).scope)
      (d.traitPath.toList.map .item) (traitPath.toList.map .item) := by
    cases hpath : d.traitPath with
    | none =>
      rw [hpath] at htr
      cases htr
      exact .nil
    | some p =>
      rw [hpath] at htr
      simp only [Option.mapM_some, Result.map_eq_ok] at htr
      obtain ⟨q, hq, rfl⟩ := htr
      exact .cons (item_becomes hin hq) .nil
  rw [ImplBlock.places, ImplBlock.places, hnames]
  refine List.rel_append (places_become rfl (List.rel_append hparams (.cons hself htrait))) ?_
  refine List.rel_flatMap (Result.mapM_eq_ok.mp hi) fun item item' hii => ?_
  simp only [Result.bind_eq_ok, Result.pure_eq_ok] at hii
  obtain ⟨member, hm, rfl⟩ := hii
  exact memberPlaces_become hitems rfl hm

theorem uses_become (h : cx.Sound s) {uses uses' : List Path} {inside : Context}
    (hu : bindUses cx uses = .ok (uses', inside)) : inside.Sound s ∧ inside.scope = cx.scope ∧
      Forall₂ (Phrase.Becomes s cx.scope) (uses.map .item) (uses'.map .item) := by
  induction uses generalizing cx uses' with
  | nil =>
    cases hu
    exact ⟨h, rfl, .nil⟩
  | cons p ps ih =>
    simp only [bindUses, Result.bind_eq_ok, Result.pure_eq_ok, Prod.mk.injEq] at hu
    obtain ⟨q, hq, ⟨qs, inside⟩, hqs, rfl, rfl⟩ := hu
    have hnext : Context.Sound { cx with
        imports := q.names.getLast?.toList.map (·, q.names) ++ cx.imports } s := by
      refine ⟨h.index, List.forall_mem_append.mpr ⟨?_, h.imports⟩, h.selfType⟩
      simp
    obtain ⟨hsound, hscope, hps⟩ := ih hnext hqs
    exact ⟨hsound, hscope, .cons (item_becomes h hq) hps⟩

mutual

theorem module_becomes : ∀ (m : Module) {cx : Context} {m' : Module}, cx.Sound s →
    cx.scope = .empty → bindModule cx m = .ok m' → (∀ pl ∈ m.places, pl.phrase.Unbound) →
      Forall₂ (Place.Becomes s) m.places m'.places
  | ⟨name, uses, items⟩, cx, m', h, hcx, hm, hun => by
    simp only [bindModule, Result.bind_eq_ok, Result.pure_eq_ok] at hm
    obtain ⟨⟨uses', inside⟩, hu, items', hi, rfl⟩ := hm
    obtain ⟨hinside, hscope, huses⟩ := uses_become h hu
    rw [hcx] at hscope huses
    exact List.rel_append (places_become rfl huses)
      (itemPlaces_become items hinside hscope hi (List.forall_mem_append.mp hun).2)

theorem itemPlace_becomes : ∀ (i : Item) {cx : Context} {i' : Item}, cx.Sound s →
    cx.scope = .empty → bindItem cx i = .ok i' → (∀ pl ∈ i.places, pl.phrase.Unbound) →
      Forall₂ (Place.Becomes s) i.places i'.places
  | .function d, cx, i', h, hcx, hb, hun => by
    simp only [bindItem, Result.bind_eq_ok, Result.pure_eq_ok] at hb
    obtain ⟨d', hd, rfl⟩ := hb
    rw [Item.places, Item.places, ← hcx]
    exact functionPlaces_become h rfl hd
  | .struct d, cx, i', h, hcx, hb, hun => by
    simp only [bindItem, Result.bind_eq_ok, Result.pure_eq_ok] at hb
    obtain ⟨d', hd, rfl⟩ := hb
    obtain ⟨hnames, hphrases⟩ := struct_becomes h hd
    rw [Item.places, Item.places, hnames, ← hcx]
    exact places_become rfl hphrases
  | .enum d, cx, i', h, hcx, hb, hun => by
    simp only [bindItem, Result.bind_eq_ok, Result.pure_eq_ok] at hb
    obtain ⟨d', hd, rfl⟩ := hb
    obtain ⟨hnames, hphrases⟩ := enum_becomes h hd
    rw [Item.places, Item.places, hnames, ← hcx]
    exact places_become rfl hphrases
  | .traitDef d, cx, i', h, hcx, hb, hun => by
    simp only [bindItem, Result.bind_eq_ok, Result.pure_eq_ok] at hb
    obtain ⟨d', hd, rfl⟩ := hb
    rw [Item.places, Item.places, ← hcx]
    exact traitPlaces_become h hd
  | .impl d, cx, i', h, hcx, hb, hun => by
    simp only [bindItem, Result.bind_eq_ok, Result.pure_eq_ok] at hb
    obtain ⟨d', hd, rfl⟩ := hb
    have hself : d.selfType.Unbound :=
      hun ⟨Scope.empty.withGenerics d.params.names, .type d.selfType⟩
        (by simp [Item.places, ImplBlock.places])
    rw [Item.places, Item.places, ← hcx]
    exact implPlaces_become h hd hself
  | .static d, cx, i', h, hcx, hb, hun => by
    simp only [bindItem, Result.bind_eq_ok, Result.pure_eq_ok] at hb
    obtain ⟨d', hd, rfl⟩ := hb
    rw [Item.places, Item.places, ← hcx]
    exact places_become rfl (static_becomes h hd)
  | .typeAlias d, cx, i', h, hcx, hb, hun => by
    simp only [bindItem, Result.bind_eq_ok, Result.pure_eq_ok] at hb
    obtain ⟨d', hd, rfl⟩ := hb
    obtain ⟨hnames, hphrases⟩ := alias_becomes h hd
    rw [Item.places, Item.places, hnames, ← hcx]
    exact places_become rfl hphrases
  | .module m, cx, i', h, hcx, hb, hun => by
    simp only [bindItem, Result.bind_eq_ok, Result.pure_eq_ok] at hb
    obtain ⟨m', hm, rfl⟩ := hb
    have hinside : (cx.enter m.name).Sound s := ⟨h.index, List.forall_mem_nil _, h.selfType⟩
    exact module_becomes m hinside hcx hm hun

theorem itemPlaces_become : ∀ (is : List Item) {cx : Context} {is' : List Item}, cx.Sound s →
    cx.scope = .empty → bindItems cx is = .ok is' → (∀ pl ∈ itemPlaces is, pl.phrase.Unbound) →
      Forall₂ (Place.Becomes s) (itemPlaces is) (itemPlaces is')
  | [], cx, is', h, hcx, hb, hun => by
    cases hb
    exact .nil
  | i :: is, cx, is', h, hcx, hb, hun => by
    simp only [bindItems, Result.bind_eq_ok, Result.pure_eq_ok] at hb
    obtain ⟨i', hi, is', his, rfl⟩ := hb
    obtain ⟨huni, hunis⟩ := List.forall_mem_append.mp hun
    exact List.rel_append (itemPlace_becomes i h hcx hi huni) (itemPlaces_become is h hcx his hunis)

end

theorem bindEnum_entry {d d' : EnumDef} (hd : bindEnum cx d = .ok d') :
    d'.name = d.name ∧ d'.variants.map (·.name) = d.variants.map (·.name) := by
  simp only [bindEnum, Result.bind_eq_ok, Result.pure_eq_ok] at hd
  obtain ⟨params, -, variants, hv, rfl⟩ := hd
  refine ⟨rfl, Result.map_eq_map_of_mapM hv fun v v' hvv => ?_⟩
  unfold bindVariant at hvv
  split at hvv <;>
  · simp only [Result.bind_eq_ok, Result.pure_eq_ok] at hvv
    obtain ⟨_, -, rfl⟩ := hvv
    rfl

theorem bindFunction_name {d d' : Function} (hd : bindFunction cx d = .ok d') :
    d'.name = d.name := by
  simp only [bindFunction, Result.bind_eq_ok, Result.pure_eq_ok] at hd
  obtain ⟨_, -, _, -, _, -, _, -, rfl⟩ := hd
  rfl

theorem bindStruct_name {d d' : StructDef} (hd : bindStruct cx d = .ok d') : d'.name = d.name := by
  simp only [bindStruct, Result.bind_eq_ok, Result.pure_eq_ok] at hd
  obtain ⟨_, -, _, -, rfl⟩ := hd
  rfl

theorem bindTrait_name {d d' : TraitDef} (hd : bindTrait cx d = .ok d') : d'.name = d.name := by
  simp only [bindTrait, Result.bind_eq_ok, Result.pure_eq_ok] at hd
  obtain ⟨_, -, _, -, rfl⟩ := hd
  rfl

theorem bindStatic_name {d d' : StaticDef} (hd : bindStatic cx d = .ok d') : d'.name = d.name := by
  simp only [bindStatic, Result.bind_eq_ok, Result.pure_eq_ok] at hd
  obtain ⟨_, -, _, -, rfl⟩ := hd
  rfl

theorem bindAlias_name {d d' : AliasDef} (hd : bindAlias cx d = .ok d') : d'.name = d.name := by
  simp only [bindAlias, Result.bind_eq_ok, Result.pure_eq_ok] at hd
  obtain ⟨_, -, _, -, rfl⟩ := hd
  rfl

mutual

/-- Names are bound without any item, or variant of an enum, losing its place or its name. -/
theorem bindModule_entries : ∀ (m : Module) {cx : Context} {m' : Module}, bindModule cx m = .ok m' →
    m'.name = m.name ∧ ∀ parents, m'.entries parents = m.entries parents
  | ⟨name, uses, items⟩, cx, m', hm => by
    simp only [bindModule, Result.bind_eq_ok, Result.pure_eq_ok] at hm
    obtain ⟨⟨uses', inside⟩, hu, items', hi, rfl⟩ := hm
    exact ⟨rfl, fun parents => bindItems_entries items hi parents⟩

theorem bindItems_entries : ∀ (is : List Item) {cx : Context} {is' : List Item},
    bindItems cx is = .ok is' → ∀ parents, itemEntries parents is' = itemEntries parents is
  | [], cx, is', hb, parents => by
    cases hb
    rfl
  | .function d :: is, cx, is', hb, parents => by
    simp only [bindItems, bindItem, Result.bind_eq_ok, Result.pure_eq_ok] at hb
    obtain ⟨_, ⟨d', hd, rfl⟩, is', his, rfl⟩ := hb
    simp only [itemEntries, bindItems_entries is his parents, bindFunction_name hd]
  | .struct d :: is, cx, is', hb, parents => by
    simp only [bindItems, bindItem, Result.bind_eq_ok, Result.pure_eq_ok] at hb
    obtain ⟨_, ⟨d', hd, rfl⟩, is', his, rfl⟩ := hb
    simp only [itemEntries, bindItems_entries is his parents, bindStruct_name hd]
  | .enum d :: is, cx, is', hb, parents => by
    simp only [bindItems, bindItem, Result.bind_eq_ok, Result.pure_eq_ok] at hb
    obtain ⟨_, ⟨d', hd, rfl⟩, is', his, rfl⟩ := hb
    simp only [itemEntries, bindItems_entries is his parents, (bindEnum_entry hd).1,
      (bindEnum_entry hd).2]
  | .traitDef d :: is, cx, is', hb, parents => by
    simp only [bindItems, bindItem, Result.bind_eq_ok, Result.pure_eq_ok] at hb
    obtain ⟨_, ⟨d', hd, rfl⟩, is', his, rfl⟩ := hb
    simp only [itemEntries, bindItems_entries is his parents, bindTrait_name hd]
  | .impl d :: is, cx, is', hb, parents => by
    simp only [bindItems, bindItem, Result.bind_eq_ok, Result.pure_eq_ok] at hb
    obtain ⟨_, ⟨d', hd, rfl⟩, is', his, rfl⟩ := hb
    simp only [itemEntries, bindItems_entries is his parents]
  | .static d :: is, cx, is', hb, parents => by
    simp only [bindItems, bindItem, Result.bind_eq_ok, Result.pure_eq_ok] at hb
    obtain ⟨_, ⟨d', hd, rfl⟩, is', his, rfl⟩ := hb
    simp only [itemEntries, bindItems_entries is his parents, bindStatic_name hd]
  | .typeAlias d :: is, cx, is', hb, parents => by
    simp only [bindItems, bindItem, Result.bind_eq_ok, Result.pure_eq_ok] at hb
    obtain ⟨_, ⟨d', hd, rfl⟩, is', his, rfl⟩ := hb
    simp only [itemEntries, bindItems_entries is his parents, bindAlias_name hd]
  | .module m :: is, cx, is', hb, parents => by
    simp only [bindItems, bindItem, Result.bind_eq_ok, Result.pure_eq_ok] at hb
    obtain ⟨_, ⟨m', hm, rfl⟩, is', his, rfl⟩ := hb
    obtain ⟨hname, hentries⟩ := bindModule_entries m hm
    simp only [itemEntries, bindItems_entries is his parents, hname, hentries]

end

end Names

/-- The names of a module are bound to its items, which are among the symbols that cover them. -/
theorem Module.places_become {source root : Module} {s : Symbols} (h : source.bindNames = .ok root)
    (hs : s.Covers (root.entries [])) (hun : ∀ pl ∈ source.places, pl.phrase.Unbound) :
    List.Forall₂ (Place.Becomes s) source.places root.places := by
  rw [(Names.bindModule_entries source h).2] at hs
  exact Names.module_becomes source
    ⟨hs, List.forall_mem_nil _, fun t ht => absurd ht (Option.not_mem_none t)⟩ rfl h hun

/-- The names of a program are bound to what is among its symbols. -/
theorem Program.places_become {source : Module} {p : Program} (h : ofModule source = .ok p)
    (hun : ∀ pl ∈ source.places, pl.phrase.Unbound) :
    List.Forall₂ (Place.Becomes p.symbols) source.places p.root.places := by
  simp only [ofModule, Result.bind_eq_ok, Result.pure_eq_ok] at h
  obtain ⟨root, hr, symbols, hs, rfl⟩ := h
  exact Module.places_become hr (Symbols.covers_ofModule hs) hun

/-- Every place of the bound program is what some place of the source becomes. -/
theorem Program.exists_place {source : Module} {p : Program} (h : ofModule source = .ok p)
    (hun : ∀ pl ∈ source.places, pl.phrase.Unbound) {b : Place} (hb : b ∈ p.root.places) :
    ∃ a ∈ source.places, a.Becomes p.symbols b := exists_of_forall₂ (places_become h hun) hb

end BorrowLang
