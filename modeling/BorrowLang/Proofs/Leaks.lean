import BorrowLang.Proofs.ScopedChecks

/-!
In an accepted program that is written without type parameters bound beforehand, the parameters in
the types of a body are declared by its function or by the impl block around it, but for those that
method calls leak: struct fields, variants, patterns and aliases take wildcards for the arguments
that are not known, and only what a method returns keeps the parameters of its impl.
-/
namespace BorrowLang
open Ty (GenericsIn compositional_genericsIn)

/-- A function that is written with these parameters and whose body leaks no others has no others
in the types of its body. -/
theorem Check.function_genericsIn {env : Env} (hs : env.symbols.Scoped) {A : String → Prop}
    {d checked : Function} (h : d.CheckedTo env checked) (hp : ∀ a ∈ d.phrases, a.GenericsIn A) :
    checked.params = d.params ∧ ∀ code ∈ checked.code,
      (∀ x ∈ code.nodes, x.LeaksIn env.symbols A) → ∀ x ∈ code.nodes, x.type.GenericsIn A := by
  obtain ⟨hparams, -, hcode⟩ := function_typesHave (hs.brings A) h hp
  exact ⟨hparams, fun code hc hl x hx => (hcode code hc hl x hx).own⟩

/-- Each parameter in a type of a checked body is declared by its function, or by the impl block
that the function stands in, or is leaked by a method call of the body. -/
theorem Program.check_declares_or_leaks {source : Module} {p : Program} {options : CheckOptions}
    {root : Module} (h : ofModule source = .ok p)
    (hun : ∀ pl ∈ source.places, pl.phrase.Unbound)
    (hwritten : ∀ pl ∈ source.places, pl.phrase.generics = [])
    (hroot : p.check options = .ok root) :
    ∀ f ∈ root.scopedFunctions options.implMethods, ∀ code ∈ f.2.code, ∀ e ∈ code.nodes,
      ∀ name ∈ e.type.generics, name ∈ f.2.params.names ∨ name ∈ f.1 ∨
        ∃ call ∈ code.nodes, call.kind.Leaks p.symbols name := by
  intro f hf code hcode e he name hn
  obtain ⟨g, hg, hscope, hto⟩ := exists_of_forall₂ (check_scopedFunctions hroot) hf
  have hphrases := p.root.scopedFunction_phrases (R := fun names a => a.GenericsIn (· ∈ names))
    (places_scoped h hun hwritten) g hg
  have hs := symbols_scoped h hun hwritten
  obtain ⟨hparams, hnodes⟩ := Check.function_genericsIn hs
    (A := fun n => n ∈ g.2.params.names ++ g.1 ∨ ∃ call ∈ code.nodes, call.kind.Leaks p.symbols n)
    hto fun a ha n hn => .inl (hphrases a ha n hn)
  rw [hscope, hparams]
  rcases hnodes code hcode (fun x hx n hl => .inr ⟨x, hx, hl⟩) e he name hn with hdeclared | hleak
  · rcases List.mem_append.mp hdeclared with hown | himpl
    · exact .inl hown
    · exact .inr (.inl himpl)
  · exact .inr (.inr hleak)

/-- In source form, `struct W<T> { v: T }`, `impl<U> W<U> { fn get(self: Self) -> U { self.v } }`
and `fn f(w: W) -> _ { w.get() }`. -/
def Module.wrapper : Module :=
  let raw (kind : ExprKind) : Expr := ⟨kind, .wildcard, default⟩
  let named (name : String) : Expr := raw (.named (.bare name))
  let arg (name : String) (type : Ty) : FunctionArg := ⟨.identifier name .immutable default, type⟩
  let get : Function := ⟨"get", ⟨[], []⟩, [arg "self" (.path (.bare "Self"))], .path (.bare "U"),
    some (raw (.field (named "self") "v")), default⟩
  ⟨"", [], [
    .struct ⟨"W", ⟨["T"], []⟩, [⟨"v", .path (.bare "T"), default⟩], default⟩,
    .impl ⟨⟨["U"], []⟩, none, .path ⟨false, [⟨"W", [.path (.bare "U")]⟩], .unbound⟩,
      [⟨"get", .function get⟩], default⟩,
    .function ⟨"f", ⟨[], []⟩, [arg "w" (.path (.bare "W"))], .wildcard,
      some (raw (.callMethod (named "w") ⟨"get", []⟩ [])), default⟩]⟩

/-- The body of `get` has the parameter of its own impl for its type, and that of `f` has it because
the argument of `w` is not written. -/
theorem Program.check_declares_or_leaks_wrapper : ∃ p root, ofModule .wrapper = .ok p ∧
    (∀ pl ∈ Module.wrapper.places, pl.phrase.Unbound) ∧
    (∀ pl ∈ Module.wrapper.places, pl.phrase.generics = []) ∧
    p.check .standard = .ok root ∧
    (∃ f ∈ root.scopedFunctions true, f.1 = ["U"] ∧ ∃ code ∈ f.2.code,
      "U" ∈ code.type.generics) ∧
    ∃ f ∈ root.scopedFunctions true, ∃ code ∈ f.2.code, "U" ∈ code.type.generics ∧
      ∃ call ∈ code.nodes, call.kind.Leaks p.symbols "U" := by
  have hun : ∀ pl ∈ Module.wrapper.places, pl.phrase.Unbound := by decide
  have hwritten : ∀ pl ∈ Module.wrapper.places, pl.phrase.generics = [] := by decide
  refine ⟨_, _, rfl, hun, hwritten, rfl, ⟨_, .head _, rfl, _, rfl, by decide⟩, _,
    .tail _ (.head _), _, rfl, by decide, ?_⟩
  have hleaks := @check_declares_or_leaks .wrapper _ .standard _ rfl hun hwritten rfl _
    (.tail _ (.head _)) _ rfl _ (Expr.mem_nodes_self _) "U" (by decide)
  exact (hleaks.resolve_left (by decide)).resolve_left (by decide)

/-- So the type of the call in `f` has a parameter that neither `f` nor an impl around it
declares. -/
theorem Program.check_leaks_wrapper : ∃ p root, ofModule .wrapper = .ok p ∧
    (∀ pl ∈ Module.wrapper.places, pl.phrase.Unbound) ∧
    (∀ pl ∈ Module.wrapper.places, pl.phrase.generics = []) ∧
    p.check .standard = .ok root ∧ ∃ f ∈ root.scopedFunctions true, ∃ code ∈ f.2.code,
      "U" ∈ code.type.generics ∧ "U" ∉ f.2.params.names ∧ "U" ∉ f.1 :=
  ⟨_, _, rfl, by decide, by decide, rfl, _, .tail _ (.head _), _, rfl, by decide, by decide,
    by decide⟩

end BorrowLang
