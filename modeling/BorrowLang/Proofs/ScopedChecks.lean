import BorrowLang.Proofs.CheckedTypes
import BorrowLang.Proofs.ScopedSymbols

/-!
The types that a check gives to the parts of a body mention only parameters that were written there,
but for what a method returns: a parameter of its impl is left in the type of the call where the
receiver gives no type for it.
-/
namespace BorrowLang
open Ty (GenericsIn compositional_genericsIn)

/-- The expression calls a method that returns this parameter of its impl, and the receiver, without
the parameters of the caller, is of the impl's self type but gives no type for the parameter. -/
def ExprKind.Leaks (s : Symbols) (kind : ExprKind) (name : String) : Prop :=
  ∃ receiver method args traitPath d f found, kind = .callMethod receiver method args ∧
    s.Offers traitPath receiver.type.forget method.name d f ∧
    name ∈ f.ret.generics ∧ name ∈ d.params.names ∧
    d.bindSelf? receiver.type.forget = some found ∧ found.get? name = none

section
variable {A : String → Prop}

/-- Whatever the expression leaks is one of these. -/
def Expr.LeaksIn (s : Symbols) (A : String → Prop) (e : Expr) : Prop :=
  ∀ name, e.kind.Leaks s name → A name

theorem Symbols.Scoped.expand {s : Symbols} (h : s.Scoped) (span : Span) (t u : Ty)
    (ht : t.GenericsIn A) (hu : s.aliases.expand span t = .ok u) : u.GenericsIn A :=
  Aliases.genericsIn_of_expand h.targets ht hu

/-! ### Methods -/

/-- What a method returns is without the parameters of its impl that the receiver gives a type
for. -/
theorem Candidate.ret_genericsIn {s : Symbols} (hs : s.Scoped) {c : Candidate}
    {traitPath : Option Path} {name : String}
    (h : s.Offers traitPath c.receiver name c.impl c.signature)
    (hparams : c.signature.params.names = []) (hreceiver : c.receiver.GenericsIn A)
    (hleak : ∀ found, c.impl.bindSelf? c.receiver = some found → ∀ n ∈ c.signature.ret.generics,
      n ∈ c.impl.params.names → found.get? n = none → A n) : c.ret.GenericsIn A := by
  obtain ⟨found, hfound⟩ := h.exists_bindSelf?
  obtain ⟨himpl, hmethod⟩ := h
  have hsignature := (hs.types.impls c.impl (List.mem_of_find?_eq_some himpl)).2 _
    (mem_of_lookup_eq_some hmethod)
  have hret := hsignature.ret
  rw [hparams, List.nil_append] at hret
  rw [Candidate.ret, hfound, Option.getD_some]
  refine Ty.GenericsIn.substitute (fun n hn => ?_)
    ((compositional_genericsIn A).bindSelf? hreceiver hfound)
  exact hleak found hfound n hn (hret n hn)

end

theorem Check.method_genericsIn {env : Env} (hs : env.symbols.Scoped) {A : String → Prop}
    {receiver : Expr} {method : Segment} {given : Nat} {span : Span} {c : Candidate}
    {frames after : Frames} {args : List Expr} (ht : receiver.type.GenericsIn A)
    (h : (Check.method env receiver.type method given span).run frames = (.ok c, after))
    (hl : ∀ name,
      (ExprKind.callMethod (receiver.derefTimes c.derefs) method args).Leaks env.symbols name →
        A name) : c.ret.GenericsIn A := by
  obtain ⟨u, traitPath, hu, hforget, hoffers⟩ := method_offers h
  have hreceiver := (compositional_genericsIn A).receiver ht h
  refine Candidate.ret_genericsIn hs (hforget ▸ hoffers) (arity_of_method h).1 hreceiver ?_
  intro found hfound name hret himpl hnone
  rw [hforget] at hfound
  have htype := Expr.type_derefTimes hu
  refine hl name ⟨_, _, _, traitPath, c.impl, c.signature, found, rfl, ?_, hret, himpl, ?_, hnone⟩
  · rw [htype]
    exact hoffers
  · rw [htype]
    exact hfound

/-- A body that is written with these parameters and leaks no others has no others in its types. -/
theorem Symbols.Scoped.brings {env : Env} (hs : env.symbols.Scoped) (A : String → Prop) :
    env.Brings (fun _ => True) (fun names => GenericsIn (· ∈ names)) (GenericsIn A)
      (Phrase.GenericsIn A) (fun kind => ∀ name, kind.Leaks env.symbols name → A name) where
  declares := hs.declares A
  annotated _ ht := ht
  suffix _ ht := ht
  type := (compositional_genericsIn A).resolvesAs hs.expand
  named _ hp _ _ := Ty.genericsIn_path.mp hp
  called _ _ hp _ _ := Ty.genericsIn_path.mp hp
  method _ _ _ _ _ _ _ := Check.method_genericsIn hs

end BorrowLang
