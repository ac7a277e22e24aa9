import BorrowLang.Proofs.AliasChains
import BorrowLang.Proofs.CheckedTypes

/-!
The aliases that are left in a checked program. Declared types, annotations and the targets of casts
lose their aliases before anything is made of them; only the arguments that are written in the path of
a struct or of a variant come into the type of a value as they are.
-/
namespace BorrowLang

/-- If an alias, then one of these. -/
def Binding.AliasIn (A : Key → Prop) (b : Binding) : Prop := ∀ key, b = .typeAlias key → A key

/-- The expression names or calls a struct or a variant, and the alias occurs in an argument that is
written in its path. -/
def ExprKind.Spells (kind : ExprKind) (key : Key) : Prop :=
  ∃ path : Path, path.Constructs ∧ (kind = .named path ∨ ∃ args, kind = .callPath path args) ∧
    ∃ s ∈ path.segments, ∃ t ∈ s.args, t.Mentions key

section
variable {A : Key → Prop}

namespace Ty

theorem AliasFree.aliasIn {t : Ty} (h : t.AliasFree) : t.AllBindings (Binding.AliasIn A) :=
  fun p hp key hk => absurd hk (h p hp key)

theorem allBindings_aliasIn {t : Ty} :
    t.AllBindings (Binding.AliasIn A) ↔ ∀ key, t.Mentions key → A key :=
  ⟨fun h key ⟨p, hp, hk⟩ => h p hp key hk, fun h p hp key hk => h key ⟨p, hp, hk⟩⟩

end Ty

/-! ### Types that are resolved -/

section
variable {env : Env} {frames : Frames} {span : Span}

mutual

/-- Whatever the written type, it is left with those aliases only that types of the blocks around
it have. -/
theorem aliasIn_of_resolveType
    (hf : ∀ name t, frames.alias? name = some t → t.AllBindings (Binding.AliasIn A)) :
    ∀ {t u : Ty}, resolveType env frames span t = .ok u → u.AllBindings (Binding.AliasIn A)
  | .path ⟨absolute, segments, binding⟩, u, h => by
    simp only [resolveType, Result.bind_eq_ok] at h
    obtain ⟨found, hfound, h⟩ := h
    split at h
    · exact (Aliases.aliasFree_of_expand h).aliasIn
    · next hb =>
      split at h
      · obtain rfl := Except.ok.inj h
        exact Ty.allBindings_path.mpr
          ⟨fun key hk => absurd hk (hb key), aliasIn_of_resolveSegments hf hfound⟩
      · split at h
        · next hlookup =>
          obtain rfl := Except.ok.inj h
          exact hf _ _ hlookup
        · contradiction
  | .borrow _ inner, u, h | .array inner _, u, h => by
    simp only [resolveType, Result.bind_eq_ok, Result.pure_eq_ok] at h
    obtain ⟨v, hv, rfl⟩ := h
    exact aliasIn_of_resolveType (t := inner) (u := v) hf hv
  | .tuple items, u, h => by
    simp only [resolveType, Result.bind_eq_ok, Result.pure_eq_ok] at h
    obtain ⟨us, hus, rfl⟩ := h
    exact Ty.allBindings_tuple.mpr (aliasIn_of_resolveTypes hf hus)
  | .wildcard, u, h | .unit, u, h | .primitive _, u, h | .generic _, u, h => by
    cases h
    exact List.forall_mem_nil _

theorem aliasIn_of_resolveTypes
    (hf : ∀ name t, frames.alias? name = some t → t.AllBindings (Binding.AliasIn A)) :
    ∀ {ts us : List Ty}, resolveTypes env frames span ts = .ok us →
      ∀ u ∈ us, u.AllBindings (Binding.AliasIn A)
  | [], us, h => by
    cases h
    exact List.forall_mem_nil _
  | t :: ts, us, h => by
    simp only [resolveTypes, Result.bind_eq_ok, Result.pure_eq_ok] at h
    obtain ⟨u, hu, us, hus, rfl⟩ := h
    exact List.forall_mem_cons.mpr
      ⟨aliasIn_of_resolveType hf hu, aliasIn_of_resolveTypes hf hus⟩

theorem aliasIn_of_resolveSegments
    (hf : ∀ name t, frames.alias? name = some t → t.AllBindings (Binding.AliasIn A)) :
    ∀ {segments found : List Segment}, resolveSegments env frames span segments = .ok found →
      Ty.SegmentsBindings (Binding.AliasIn A) found
  | [], found, h => by
    cases h
    exact Ty.segmentsBindings_nil
  | ⟨name, args⟩ :: rest, found, h => by
    simp only [resolveSegments, Result.bind_eq_ok, Result.pure_eq_ok] at h
    obtain ⟨args', hargs, rest', hrest, rfl⟩ := h
    exact Ty.segmentsBindings_cons.mpr
      ⟨aliasIn_of_resolveTypes hf hargs, aliasIn_of_resolveSegments hf hrest⟩

end

end

/-! ### Checks -/

/-- Nothing that is known of types before the check mentions an alias. -/
def Phrase.GivenAliasFree : Phrase → Prop
  | annotated t | suffix t => t.AliasFree
  | type _ | item _ | value _ => True

theorem Phrase.Becomes.givenAliasFree {s : Symbols} {scope : Scope} {a b : Phrase}
    (h : a.Becomes s scope b) (hun : a.Unbound) : b.GivenAliasFree := by
  have hfree {t : Ty} (ht : ∀ p ∈ t.paths, p.binding = .unbound) : t.AliasFree := by
    intro p hp key hk
    cases (ht p hp).symm.trans hk
  cases h.binds with
  | annotated | suffix => exact hfree hun
  | type | item | value | localValue => trivial

/-- Declared types have lost their aliases, and what is written in paths is spelled there. -/
theorem Symbols.Types.brings {env : Env} (hs : env.symbols.Types Ty.AliasFree) (A : Key → Prop) :
    env.Brings (Binding.AliasIn A) (fun _ => Ty.AliasFree) (Ty.AllBindings (Binding.AliasIn A))
      Phrase.GivenAliasFree fun kind => ∀ key, kind.Spells key → A key where
  declares := {
    compositional := Ty.compositional_allBindings _
    owner := fun _ => ⟨nofun, nofun⟩
    types := types_iff.mp hs
    instantiate := fun names _ _ ht ha =>
      Ty.AllBindings.substitute (Substitution.allBindings_ofArgs names ha) ht.aliasIn
    closed := fun _ ht => ht.aliasIn }
  annotated _ ht := ht.aliasIn
  suffix _ ht := ht.aliasIn
  type _ _ _ _ hf _ hu := aliasIn_of_resolveType (fun _ _ => hf.alias?) hu
  named path _ hn hpath s hs t ht := Ty.allBindings_aliasIn.mpr fun key hk =>
    hn key ⟨path, hpath, .inl rfl, s, hs, t, ht, hk⟩
  called path args _ hn hpath s hs t ht := Ty.allBindings_aliasIn.mpr fun key hk =>
    hn key ⟨path, hpath, .inr ⟨args, rfl⟩, s, hs, t, ht, hk⟩
  method receiver method args span frames after c ht h _ := by
    have hQ := Ty.compositional_allBindings (Binding.AliasIn A)
    have hreceiver := hQ.receiver ht h
    obtain ⟨-, u, -, hm⟩ := Check.method_eq_ok h
    have hsignature := hs.methodAt? (Env.method_eq_ok_iff.mp hm).2.2.1
    refine Ty.AllBindings.substitute (fun e he => ?_) hsignature.ret.aliasIn
    cases hbind : c.impl.bindSelf? c.receiver with
    | none =>
      rw [hbind] at he
      cases he
    | some sub =>
      rw [hbind] at he
      exact hQ.bindSelf? hreceiver hbind e he

end

theorem Program.symbols_aliasFree {source : Module} {p : Program} (h : ofModule source = .ok p) :
    p.symbols.Types Ty.AliasFree := by
  simp only [ofModule, Result.bind_eq_ok, Result.pure_eq_ok] at h
  obtain ⟨root, -, symbols, hs, rfl⟩ := h
  exact Symbols.types_aliasFree hs

/-- The types of the arguments of a checked function mention no alias. An alias in the type of an
expression of its body, or in the type of a `let` or a cast there, is spelled in the path of a struct
or of a variant in that body. -/
theorem Program.check_mentions_spelled {source : Module} {p : Program} {options : CheckOptions}
    {root : Module} (h : ofModule source = .ok p)
    (hun : ∀ pl ∈ source.places, pl.phrase.Unbound) (hroot : p.check options = .ok root) :
    ∀ f ∈ root.functions options.implMethods, (∀ arg ∈ f.args, arg.type.AliasFree) ∧
      ∀ code ∈ f.code, ∀ e ∈ code.nodes, ∀ t, (t = e.type ∨ t ∈ e.kind.declared?) →
        ∀ key, t.Mentions key → ∃ x ∈ code.nodes, x.kind.Spells key := by
  intro f hf
  obtain ⟨g, hg, hto⟩ := exists_of_forall₂ (check_functions hroot) hf
  have hgiven : ∀ a ∈ g.phrases, a.GivenAliasFree := by
    refine p.root.function_phrases (fun pl hpl => ?_) g hg
    obtain ⟨a, ha, hbecomes⟩ := exists_place h hun hpl
    exact hbecomes.phrase.givenAliasFree (hun a ha)
  have hs : (Env.mk p.symbols options).symbols.Types Ty.AliasFree := symbols_aliasFree h
  obtain ⟨-, hargs, -⟩ := Check.function_typesHave (hs.brings fun _ => False) hto hgiven
  refine ⟨fun arg harg q hq key hk => hargs arg harg q hq key hk, fun code hcode => ?_⟩
  have hspelled := hs.brings fun key => ∃ x ∈ code.nodes, x.kind.Spells key
  obtain ⟨-, -, hbody⟩ := Check.function_typesHave hspelled hto hgiven
  intro e he t ht
  obtain ⟨hown, hdeclared⟩ := hbody code hcode (fun x hx key hk => ⟨x, hx, hk⟩) e he
  rcases ht with rfl | ht
  · exact Ty.allBindings_aliasIn.mp hown
  · exact Ty.allBindings_aliasIn.mp (hdeclared t ht)

/-- In source form, `type Id = u32;`, `enum Opt<T> { None, Some(T) }` and
`fn f(x: Id) -> _ { let y: Id = x; Opt::None::<Id> }`. -/
def Module.spelled : Module :=
  let raw (kind : ExprKind) : Expr := ⟨kind, .wildcard, default⟩
  let id : Ty := .path (.bare "Id")
  let binder (name : String) : Pattern := .identifier name .immutable default
  let copy : Expr := raw (.letIn (binder "y") id (raw (.named (.bare "x"))))
  let empty : Expr := raw (.named ⟨false, [⟨"Opt", []⟩, ⟨"None", [id]⟩], .unbound⟩)
  ⟨"", [], [
    .typeAlias ⟨"Id", ⟨[], []⟩, .primitive .u32, default⟩,
    .enum ⟨"Opt", ⟨["T"], []⟩, [⟨"None", .value .none, default⟩,
      ⟨"Some", .tuple [.path (.bare "T")], default⟩], default⟩,
    .function ⟨"f", ⟨[], []⟩, [⟨binder "x", id⟩], .wildcard,
      some (raw (.block ⟨[copy], some empty, [], []⟩)), default⟩]⟩

/-- The argument and the `let` have lost the alias; the variant, and with it the body, has the one
that is spelled in its path. -/
theorem Program.check_mentions_spelled_variant : ∃ p root, ofModule .spelled = .ok p ∧
    (∀ pl ∈ Module.spelled.places, pl.phrase.Unbound) ∧ p.check .standard = .ok root ∧
    ∃ f ∈ root.functions true, f.args.map (·.type) = [.primitive .u32] ∧
      (∀ arg ∈ f.args, arg.type.AliasFree) ∧ ∃ code ∈ f.code, code.type.Mentions "::Id" ∧
      ∃ x ∈ code.nodes, x.kind.Spells "::Id" := by
  have hun : ∀ pl ∈ Module.spelled.places, pl.phrase.Unbound := by decide
  refine ⟨_, _, rfl, hun, rfl, _, .head _, rfl, ?_⟩
  obtain ⟨hargs, hbody⟩ := @check_mentions_spelled .spelled _ .standard _ rfl hun rfl _ (.head _)
  refine ⟨hargs, _, rfl, ⟨_, .tail _ (.head _), rfl⟩, ?_⟩
  exact hbody _ rfl _ (Expr.mem_nodes_self _) _ (.inl rfl) _ ⟨_, .tail _ (.head _), rfl⟩

/-- So a type in a checked body mentions an alias, though the program is written with unbound paths
only and without suffixes. -/
theorem Program.check_keeps_spelled_alias : ∃ p root, ofModule .spelled = .ok p ∧
    (∀ pl ∈ Module.spelled.places, pl.phrase.Unbound ∧ ¬ pl.phrase matches .suffix _) ∧
    p.check .standard = .ok root ∧
    ∃ f ∈ root.functions true, ∃ code ∈ f.code, ¬ code.type.AliasFree := by
  refine ⟨_, _, rfl, by decide, rfl, _, .head _, _, rfl, fun hfree => ?_⟩
  exact hfree _ (.tail _ (.head _)) "::Id" rfl

end BorrowLang
