import BorrowLang.Proofs.KnownChecks

/-! What a program is once its names are bound, and what its checks then never miss. -/
namespace BorrowLang

/-- The same place, with everything that is looked at bound to what it names. -/
structure Place.Bound (s : Symbols) (a b : Place) : Prop where
  generics : b.scope.generics = a.scope.generics
  binds : a.phrase.BindsTo b.scope b.phrase
  settled : b.phrase.Settled s

/-- In source form,
`use geo::Shape;`
`mod geo { struct Point; enum Shape { Dot(Point) }`
`impl Point { fn dot(at: Self) -> Shape { Shape::Dot(at) } } }`
`fn pick(s: Shape) -> geo::Point { match s { Shape::Dot(p) => p } }`. -/
def Module.geometry : Module :=
  let plain : Params := ⟨[], []⟩
  let raw (kind : ExprKind) : Expr := ⟨kind, .wildcard, default⟩
  let named (name : String) : Expr := raw (.named (.bare name))
  let arg (name : String) (type : Ty) : FunctionArg := ⟨.identifier name .immutable default, type⟩
  let point : Ty := .path (.bare "Point")
  let shape : Ty := .path (.bare "Shape")
  let dot : Path := .ofNames false ["Shape", "Dot"]
  let make : Function := ⟨"dot", plain, [arg "at" (.path (.bare "Self"))], shape,
    some (raw (.callPath dot [named "at"])), default⟩
  let take : Arm := ⟨[.variant dot [.identifier "p" .immutable default] default], none, named "p"⟩
  let pick : Function := ⟨"pick", plain, [arg "s" shape], .path (.ofNames false ["geo", "Point"]),
    some (raw (.matchOn (named "s") [take])), default⟩
  let geo : Module := ⟨"geo", [], [
    .struct ⟨"Point", plain, [], default⟩,
    .enum ⟨"Shape", plain, [⟨"Dot", .tuple [point], default⟩], default⟩,
    .impl ⟨plain, none, point, [⟨"dot", .function make⟩], default⟩]⟩
  ⟨"", [.ofNames false ["geo", "Shape"]], [.module geo, .function pick]⟩

namespace Program

theorem places_bound {source : Module} {p : Program} (h : ofModule source = .ok p)
    (hun : ∀ pl ∈ source.places, pl.phrase.Unbound) :
    List.Forall₂ (Place.Bound p.symbols) source.places p.root.places := by
  have hplaces := places_become h hun
  refine List.forall₂_iff_get.mpr ⟨hplaces.length_eq, fun i hi hi' => ?_⟩
  have hplace := hplaces.get hi hi'
  exact ⟨hplace.generics, hplace.phrase.binds, hplace.phrase.settled (hun _ (List.getElem_mem hi))⟩

/-- Place by place, the written names are bound to what the absolute paths that they become denote,
which is among the symbols. So no check fails because an item is not there. -/
theorem places_bound_and_check_finds_items {source : Module} {p : Program}
    (h : ofModule source = .ok p) (hun : ∀ pl ∈ source.places, pl.phrase.Unbound) :
    List.Forall₂ (Place.Bound p.symbols) source.places p.root.places ∧
      ∀ (options : CheckOptions) (name : String) (span : Span),
        p.check options ≠ .error (.unresolvedName .item name span) := by
  refine ⟨places_bound h hun, fun options name span hcheck => ?_⟩
  have hfinds := check_finds h hun options
  rw [hcheck] at hfinds
  exact hfinds trivial

theorem places_bound_and_check_finds_items_geometry : ∃ p, ofModule .geometry = .ok p ∧
    (∀ pl ∈ Module.geometry.places, pl.phrase.Unbound) ∧
    List.Forall₂ (Place.Bound p.symbols) Module.geometry.places p.root.places ∧
      ∀ (options : CheckOptions) (name : String) (span : Span),
        p.check options ≠ .error (.unresolvedName .item name span) :=
  have hun : ∀ pl ∈ Module.geometry.places, pl.phrase.Unbound := by decide
  ⟨_, rfl, hun, places_bound_and_check_finds_items rfl hun⟩

end Program

/-- In source form, `enum r#"" { V }`, `mod a { struct B; }` and `fn f() { ::V; x::<a::B> }`, where
`a::B` is also what is known of the type of `::V`. -/
def Module.strays : Module :=
  let plain : Params := ⟨[], []⟩
  let inner : Ty := .path (.ofNames false ["a", "B"])
  let first : Expr := ⟨.named (.ofNames true ["V"]), inner, default⟩
  let last : Expr := ⟨.named ⟨false, [⟨"x", [inner]⟩], .unbound⟩, .wildcard, default⟩
  let body : Expr := ⟨.block ⟨[first], some last, [], []⟩, .wildcard, default⟩
  ⟨"", [], [
    .enum ⟨"", plain, [⟨"V", .value none, default⟩], default⟩,
    .module ⟨"a", [], [.struct ⟨"B", plain, [], default⟩]⟩,
    .function ⟨"f", plain, [], .unit, some body, default⟩]⟩

/-- What is known of types and the arguments of locals stay unbound, though they name an item; and a
variant of a root enum with an empty name is bound where the key of its enum is not in front of its
name. -/
theorem Program.strays_unbound : ∃ p, ofModule .strays = .ok p ∧
    (∀ pl ∈ Module.strays.places, pl.phrase.Unbound) ∧
    (p.symbols.structs.get? "::a::B").isSome ∧
    (∃ pl ∈ p.root.places, ∃ t, pl.phrase = .annotated t ∧
      ∃ q ∈ t.paths, q.names = ["a", "B"] ∧ q.absolute = false ∧ q.binding = .unbound) ∧
    (∃ pl ∈ p.root.places, ∃ v, pl.phrase = .value v ∧ v.binding = .unbound ∧
      ∃ q ∈ v.argPaths, q.names = ["a", "B"] ∧ q.absolute = false ∧ q.binding = .unbound) ∧
    ∃ pl ∈ p.root.places, ∃ v d w, pl.phrase = .value v ∧ v.binding = .variant "::" 0 ∧
      p.symbols.enums.get? "::" = some d ∧ d.variants[0]? = some w ∧
      v.key ≠ "::" ++ "::" ++ w.name := by
  refine ⟨_, rfl, by decide, by decide, ?_, ?_, ?_⟩
  · exact ⟨_, .tail _ (.tail _ (.head _)), _, rfl, _, .head _, by decide, by decide, by decide⟩
  · exact ⟨_, .tail _ (.tail _ (.tail _ (.tail _ (.tail _ (.head _))))), _, rfl, by decide, _,
      .head _, by decide, by decide, by decide⟩
  · exact ⟨_, .tail _ (.tail _ (.tail _ (.head _))), _, _, _, rfl, by decide, rfl, rfl, by decide⟩

end BorrowLang
