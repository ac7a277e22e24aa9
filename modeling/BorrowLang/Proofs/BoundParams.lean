import BorrowLang.Proofs.ScopedPlaces

/-!
Which written names become type parameters. The binding of names keeps what stands inside a type at
its place, so each written path is compared with what stands at the same place afterwards.
-/
namespace BorrowLang

/-- The arguments of all segments. -/
def Path.args (p : Path) : List Ty := p.segments.flatMap (·.args)

theorem Path.args_of_bareName? {p : Path} {name : String} (h : p.bareName? = some name) :
    p.args = [] := by
  rw [args, ((bareName?_eq_some_iff p name).mp h).2]
  rfl

/-- What the path names is the parameter of an item around, directly or because it is what `Self`
stands for. -/
def Scope.NamesParam (scope : Scope) (p : Path) (name : String) : Prop :=
  p.bareName? = some name ∧ name ∈ scope.generics ∨
    p.bareName? = some "Self" ∧ "Self" ∉ scope.generics ∧ scope.selfType? = some (.generic name)

theorem Scope.Leaves.not_namesParam {scope : Scope} {p : Path} (h : scope.Leaves p) (name : String) :
    ¬ scope.NamesParam p name := by
  rintro (⟨hname, hmem⟩ | ⟨hself, -, htype⟩)
  · exact (h name hname).1 hmem
  · have hnone := (h "Self" hself).2 rfl
    rw [htype] at hnone
    contradiction

namespace Ty
open List (Forall₂)

/-- The types that stand directly inside the type, as they are written from left to right. -/
def parts : Ty → List Ty
  | wildcard | unit | primitive _ | generic _ => []
  | borrow _ inner | array inner _ => [inner]
  | path p => p.args
  | tuple items => items

/-- The type at a position, which says level by level into which part to go. -/
def at? : List Nat → Ty → Option Ty
  | [], t => some t
  | i :: position, t => t.parts[i]?.bind (at? position)

/-- Where the first type has a path, the second has a type parameter just when the path names it. -/
def ParamsIn (scope : Scope) (t u : Ty) : Prop :=
  ∀ position p, t.at? position = some (path p) →
    ∀ name, u.at? position = some (generic name) ↔ scope.NamesParam p name

variable {scope : Scope}

theorem AllBind.forall₂ {ts us : List Ty} (h : AllBind scope ts us) :
    Forall₂ (BindsTo scope) ts us := by
  induction ts generalizing us with
  | nil =>
    cases h
    exact .nil
  | cons t ts ih =>
    cases h with
    | cons ht hts => exact .cons ht (ih hts)

theorem SegmentsBind.args {segments bound : List Segment} (h : SegmentsBind scope segments bound) :
    Forall₂ (BindsTo scope) (segments.flatMap (·.args)) (bound.flatMap (·.args)) := by
  induction segments generalizing bound with
  | nil =>
    cases h
    exact .nil
  | cons s rest ih =>
    cases h with
    | cons hargs hrest => exact List.rel_append hargs.forall₂ (ih hrest)

theorem PathBinds.args {p q : Path} (h : PathBinds scope p q) :
    Forall₂ (BindsTo scope) p.args q.args := by
  cases h with
  | mk parents binding hs =>
    have hparents : (parents.map (fun name => (⟨name, []⟩ : Segment))).flatMap (·.args) = [] := by
      simp
    rw [Path.args, Path.args, List.flatMap_append, hparents, List.nil_append]
    exact hs.args

/-- What has parts keeps them; only a bare name may become something else. -/
theorem BindsTo.parts : ∀ {t u : Ty}, t.BindsTo scope u → t.parts ≠ [] →
    Forall₂ (BindsTo scope) t.parts u.parts
  | _, _, .wildcard, hparts | _, _, .unit, hparts | _, _, .primitive _, hparts
  | _, _, .generic _, hparts => absurd rfl hparts
  | _, _, .borrow h, _ | _, _, .array h, _ => .cons h .nil
  | _, _, .tuple h, _ => h.forall₂
  | _, _, .item _ h, _ => h.args
  | _, _, .param hname _, hparts | _, _, .selfType hname _ _, hparts
  | _, _, .alias hname _, hparts => absurd (Path.args_of_bareName? hname) hparts

theorem BindsTo.at? {position : List Nat} {t u v : Ty} (h : t.BindsTo scope u)
    (hv : t.at? position = some v) : ∃ w, u.at? position = some w ∧ v.BindsTo scope w := by
  induction position generalizing t u with
  | nil =>
    cases hv
    exact ⟨u, rfl, h⟩
  | cons i position ih =>
    obtain ⟨part, hpart, hv⟩ := Option.bind_eq_some_iff.mp hv
    have hparts := h.parts (List.ne_nil_of_mem (List.mem_of_getElem? hpart))
    obtain ⟨hi, rfl⟩ := List.getElem?_eq_some_iff.mp hpart
    have hi' : i < u.parts.length := hparts.length_eq ▸ hi
    obtain ⟨w, hw, hbinds⟩ := ih (hparts.get hi hi') hv
    exact ⟨w, by rw [Ty.at?, List.getElem?_eq_getElem hi']; exact hw, hbinds⟩

theorem BindsTo.eq_generic_iff {p : Path} {u : Ty} (name : String) :
    (path p).BindsTo scope u → (u = .generic name ↔ scope.NamesParam p name)
  | .param hname hmem => by
    constructor
    · intro heq
      cases heq
      exact .inl ⟨hname, hmem⟩
    · rintro (⟨hname', -⟩ | ⟨hself, hfree, -⟩)
      · rw [Option.some.inj (hname.symm.trans hname')]
      · rw [Option.some.inj (hname.symm.trans hself)] at hmem
        contradiction
  | .selfType hself hfree htype => by
    constructor
    · intro heq
      exact .inr ⟨hself, hfree, heq ▸ htype⟩
    · rintro (⟨hname, hmem⟩ | ⟨-, -, htype'⟩)
      · rw [← Option.some.inj (hself.symm.trans hname)] at hmem
        contradiction
      · exact Option.some.inj (htype.symm.trans htype')
  | .item hleaves _ => iff_of_false nofun (hleaves.not_namesParam name)
  | .alias _ hleaves => iff_of_false nofun (hleaves.not_namesParam name)

theorem BindsTo.paramsIn {t u : Ty} (h : t.BindsTo scope u) : t.ParamsIn scope u := by
  intro position p hp name
  obtain ⟨w, hw, hbinds⟩ := h.at? hp
  rw [hw, Option.some.injEq]
  exact hbinds.eq_generic_iff name

end Ty

namespace Phrase
open List (Forall₂)

/-- The types in the phrase. -/
def types : Phrase → List Ty
  | type t | annotated t | suffix t => [t]
  | item p | value p => p.args

/-- Not looked at: what is known of the type of an expression, the type behind a number, and
relative values of at most one segment, which are locals. -/
def Skipped : Phrase → Prop
  | type _ | item _ => False
  | value p => p.absolute = false ∧ p.segments.length ≤ 1
  | annotated _ | suffix _ => True

variable {scope : Scope} {a b : Phrase}

theorem BindsTo.eq_of_skipped (h : a.BindsTo scope b) (ha : a.Skipped) : b = a := by
  cases h with
  | type | item => exact ha.elim
  | value hglobal _ =>
    obtain ⟨habsolute, hlength⟩ := ha
    rcases hglobal with hglobal | hglobal
    · rw [habsolute] at hglobal
      contradiction
    · omega
  | localValue | annotated | suffix => rfl

theorem BindsTo.types (h : a.BindsTo scope b) (ha : ¬ a.Skipped) :
    Forall₂ (Ty.BindsTo scope) a.types b.types := by
  cases h with
  | type h => exact .cons h .nil
  | item h => exact h.args
  | value _ h => exact h.args
  | localValue habsolute hlength => exact absurd ⟨habsolute, hlength⟩ ha
  | annotated | suffix => exact absurd trivial ha

end Phrase

/-- The same place, where of the written paths just those that name a type parameter of an item
around have become type parameters. -/
structure Place.ParamsBound (a b : Place) : Prop where
  generics : b.scope.generics = a.scope.generics
  types : ¬ a.phrase.Skipped →
    List.Forall₂ (Ty.ParamsIn b.scope) a.phrase.types b.phrase.types
  skipped : a.phrase.Skipped → b.phrase = a.phrase

theorem Place.Becomes.paramsBound {s : Symbols} {a b : Place} (h : a.Becomes s b) :
    a.ParamsBound b where
  generics := h.generics
  types ha := (h.phrase.binds.types ha).imp fun _ _ => Ty.BindsTo.paramsIn
  skipped := h.phrase.binds.eq_of_skipped

/-- Place by place, a bare name becomes a type parameter just when it is one of an item around or is
what `Self` stands for there; and all parameters that are mentioned afterwards are in scope. -/
theorem Module.bindNames_params {source root : Module} (h : source.bindNames = .ok root)
    (hun : ∀ pl ∈ source.places, pl.phrase.Unbound)
    (hwritten : ∀ pl ∈ source.places, pl.phrase.generics = []) :
    List.Forall₂ Place.ParamsBound source.places root.places ∧
      ∀ pl ∈ root.places, pl.phrase.GenericsIn (· ∈ pl.scope.generics) := by
  have hbecome := Module.places_become h (Symbols.covers_collect root) hun
  exact ⟨hbecome.imp fun _ _ => Place.Becomes.paramsBound, places_scoped h hun hwritten⟩

/-- In source form, `struct T; struct U; struct W<T> { v: T }`,
`impl<T> W<T> { fn zip<U>(self: &Self, pair: (U, T)) -> W<U> }` and `fn plain(x: T) -> W<U>`. -/
def Module.shadowed : Module :=
  let bare (name : String) : Ty := .path (.bare name)
  let wrap (name : String) : Ty := .path ⟨false, [⟨"W", [bare name]⟩], .unbound⟩
  let arg (name : String) (type : Ty) : FunctionArg := ⟨.identifier name .immutable default, type⟩
  let zip : Function := ⟨"zip", ⟨["U"], []⟩,
    [arg "self" (.borrow .shared (bare "Self")), arg "pair" (.tuple [bare "U", bare "T"])],
    wrap "U", none, default⟩
  let plain : Function := ⟨"plain", ⟨[], []⟩, [arg "x" (bare "T")], wrap "U", none, default⟩
  ⟨"", [], [
    .struct ⟨"T", ⟨[], []⟩, [], default⟩,
    .struct ⟨"U", ⟨[], []⟩, [], default⟩,
    .struct ⟨"W", ⟨["T"], []⟩, [⟨"v", bare "T", default⟩], default⟩,
    .impl ⟨⟨["T"], []⟩, none, wrap "T", [⟨"zip", .function zip⟩], default⟩,
    .function plain]⟩

/-- In the method `U` and `T` are parameters, and outside they are structs. -/
theorem Module.bindNames_params_shadowed : ∃ root, shadowed.bindNames = .ok root ∧
    (∀ pl ∈ shadowed.places, pl.phrase.Unbound) ∧
    (∀ pl ∈ shadowed.places, pl.phrase.generics = []) ∧
    root.places[3]?.map (·.phrase) = some (Phrase.type (.tuple [.generic "U", .generic "T"])) ∧
    root.places[5]?.map (·.phrase) =
      some (Phrase.type (.path ⟨true, [⟨"T", []⟩], .structType "::T"⟩)) ∧
    List.Forall₂ Place.ParamsBound shadowed.places root.places ∧
      ∀ pl ∈ root.places, pl.phrase.GenericsIn (· ∈ pl.scope.generics) := by
  have hun : ∀ pl ∈ shadowed.places, pl.phrase.Unbound := by decide
  have hwritten : ∀ pl ∈ shadowed.places, pl.phrase.generics = [] := by decide
  exact ⟨_, rfl, hun, hwritten, rfl, rfl, bindNames_params rfl hun hwritten⟩

/-- In source form, `trait Tr {}`, `impl<T> Tr for T { fn me(self: Self) -> T }` and
`fn f<T>(x: T) -> _ { (x::<T>, 1T) }`, where `T` is also what is known of the type of `x::<T>`. -/
def Module.oneselves : Module :=
  let bare (name : String) : Ty := .path (.bare name)
  let arg (name : String) (type : Ty) : FunctionArg := ⟨.identifier name .immutable default, type⟩
  let me : Function := ⟨"me", ⟨[], []⟩, [arg "self" (bare "Self")], bare "T", none, default⟩
  let x : Expr := ⟨.named ⟨false, [⟨"x", [bare "T"]⟩], .unbound⟩, bare "T", default⟩
  let one : Expr := ⟨.literal (.int 1 (some (bare "T"))), .wildcard, default⟩
  let body : Expr := ⟨.tuple [x, one], .wildcard, default⟩
  ⟨"", [], [
    .traitDef ⟨"Tr", ⟨[], []⟩, [], default⟩,
    .impl ⟨⟨["T"], []⟩, some (.bare "Tr"), bare "T", [⟨"me", .function me⟩], default⟩,
    .function ⟨"f", ⟨["T"], []⟩, [arg "x" (bare "T")], .wildcard, some body, default⟩]⟩

/-- `Self` becomes the parameter that the impl is for; and what is known of types, the arguments of
locals and the types behind numbers keep the name of a parameter in scope as a path. -/
theorem Module.oneselves_params :
    let t : Ty := .path (.bare "T")
    ∃ root, oneselves.bindNames = .ok root ∧
    (∀ pl ∈ oneselves.places, pl.phrase.Unbound) ∧
    (∀ pl ∈ oneselves.places, pl.phrase.generics = []) ∧
    (∀ pl ∈ root.places, pl.scope.generics = ["T"]) ∧
    oneselves.places[2]?.map (·.phrase) = some (Phrase.type (.path (.bare "Self"))) ∧
    root.places[2]?.map (·.phrase) = some (Phrase.type (.generic "T")) ∧
    root.places[7]?.map (·.phrase) = some (Phrase.annotated t) ∧
    root.places[8]?.map (·.phrase) = some (Phrase.value ⟨false, [⟨"x", [t]⟩], .unbound⟩) ∧
    root.places[10]?.map (·.phrase) = some (Phrase.suffix t) := by
  have hun : ∀ pl ∈ oneselves.places, pl.phrase.Unbound := by decide
  have hwritten : ∀ pl ∈ oneselves.places, pl.phrase.generics = [] := by decide
  exact ⟨_, rfl, hun, hwritten, by decide, rfl, rfl, rfl, rfl, rfl⟩

end BorrowLang
