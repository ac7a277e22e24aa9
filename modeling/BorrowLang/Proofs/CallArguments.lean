import BorrowLang.Proofs.CheckedNodes
import BorrowLang.Proofs.ScopedTypes
import BorrowLang.Proofs.VariantTypes

/-!
What an accepted call says of its arguments. Those of a variant merge with the types of its fields; of
those of a function or of a method only the number is compared with what is declared.
-/
namespace BorrowLang

/-! ### The arguments of an enum in a type that refines it -/

namespace Ty

theorem SegmentsRefine.names_eq : ∀ {segments others : List Segment},
    SegmentsRefine segments others → segments.map (·.name) = others.map (·.name)
  | _, _, .nil => rfl
  | _, _, .omitted hs | _, _, .given _ hs => by rw [List.map_cons, List.map_cons, hs.names_eq]

theorem SegmentsRefine.getLast? : ∀ {segments others : List Segment} {s : Segment},
    SegmentsRefine segments others → segments.getLast? = some s →
      ∃ s', others.getLast? = some s' ∧ (s.args = [] ∨ AllRefine s.args s'.args)
  | [_], [_], _, .omitted .nil, rfl => ⟨_, rfl, .inl rfl⟩
  | [_], [_], _, .given h .nil, rfl => ⟨_, rfl, .inr h⟩
  | _ :: _ :: _, _ :: _ :: _, _, .omitted hs, hlast | _ :: _ :: _, _ :: _ :: _, _, .given _ hs, hlast =>
    hs.getLast? hlast

theorem exists_of_path_le {p : Path} {u : Ty} (h : path p ≤ u) : ∃ q : Path, u = path q ∧
    p.absolute = q.absolute ∧ SegmentsRefine p.segments q.segments := by
  cases h with
  | path hs => exact ⟨_, rfl, rfl, hs⟩

end Ty

/-- What refines the type of an enum is a type of the same enum, and its arguments refine those given;
a path without segments has no place for arguments. -/
theorem Path.enumType_le {path : Path} {enumKey : Key} {args : List Ty} {t : Ty}
    (h : path.enumType enumKey args ≤ t) :
    ∃ q : Path, t = .path q ∧ path.parent.sameItem q = true ∧
      (args = [] ∨ q.lastArgs = [] ∨ Ty.AllRefine args q.lastArgs) := by
  obtain ⟨q, rfl, habsolute, hs⟩ := Ty.exists_of_path_le h
  change Ty.SegmentsRefine (path.parent.withLastArgs args).segments q.segments at hs
  refine ⟨q, rfl, (sameItem_iff ..).mpr ⟨habsolute, ?_⟩, ?_⟩
  · rw [← path.parent.names_withLastArgs args]
    exact hs.names_eq
  · rw [Path.withLastArgs] at hs
    cases hlast : path.parent.last? with
    | none =>
      have hnone : path.parent.segments = [] := List.getLast?_eq_none_iff.mp hlast
      rw [hlast, hnone] at hs
      have hempty : q.segments = [] := List.map_eq_nil_iff.mp hs.names_eq.symm
      exact .inr (.inl (by rw [lastArgs, last?, hempty]; rfl))
    | some last =>
      rw [hlast] at hs
      obtain ⟨s, hq, hargs⟩ := hs.getLast? (List.getLast?_concat ..)
      have hs : q.lastArgs = s.args := by rw [lastArgs, last?, hq]; rfl
      exact hs ▸ hargs.imp_right .inr

/-- A value that a field explains merges with the type of the field, whatever the arguments are
refined to, and where they are left out as well. -/
theorem EnumDef.Explains.merge {d : EnumDef} {args others : List Ty} {template u : Ty}
    (h : d.Explains args template u) (hlen : args.length = d.params.names.length)
    (hargs : args = [] ∨ others = [] ∨ Ty.AllRefine args others) :
    ∃ w, (template.substitute (.pad d.params.names others)).merge u = .ok w := by
  obtain ⟨m, hm, hexplains⟩ := h
  rcases hargs with rfl | rfl | hargs
  · have hnames := List.eq_nil_of_length_eq_zero hlen.symm
    rw [hnames] at hexplains ⊢
    exact Ty.merge_of_matchTemplate? hm hexplains
  · obtain ⟨c, hc, hu⟩ := Ty.refines_of_matchTemplate? hm hexplains
    have hmono := Ty.substitute_mono (Substitution.pad_nil_refinedBy d.params.names args) template
    obtain ⟨w, hw, -⟩ := Ty.merge?_of_le (hmono.trans hc) hu
    exact ⟨w, Ty.merge_eq_ok_iff.mpr hw⟩
  · exact Ty.merge_of_matchTemplate? hm (hexplains.mono (Substitution.pad_below _ hargs))

/-- The self type of an impl merges with the type it was selected for. -/
theorem ImplSignature.merge_of_bindSelf? {d : ImplSignature} {t : Ty} {found : Substitution}
    (h : d.bindSelf? t = some found) : ∃ w, (d.selfType.substitute found).merge t = .ok w := by
  obtain ⟨m, hm, hfound⟩ := bindSelf?_eq_some.mp h
  exact Ty.merge_of_matchTemplate? hm (Substitution.explains_recordAll? hfound).2

/-! ### Calls -/

namespace Symbols
variable (s : Symbols)

/-- A call of the path with arguments of these types has type `t`. Any other arguments would do for a
function, if there are as many. The fields of a variant merge with its arguments, once the parameters
of the enum are replaced by the arguments in the type of the call: a parameter that is listed twice
stands for the first of its arguments. -/
inductive Calls (path : Path) (found : List Ty) (t : Ty) : Prop
  | function {key : Key} {f : Signature} : path.binding = .function key →
    s.functions.get? key = some f → f.params.names = [] → f.args.length = found.length → f.ret ≤ t →
    (∀ (others : List Ty) (span : Span), others.length = found.length →
      s.callType path others span = .ok f.ret) → Calls path found t
  | variant {enumKey : Key} {index : Nat} {d : EnumDef} {v : Variant} {templates : List Ty}
    {p : Path} : path.binding = .variant enumKey index → s.enums.get? enumKey = some d →
    d.variants[index]? = some v → v.data.positional? = some templates →
    t = .path p → path.parent.sameItem p = true →
    List.Forall₂ (fun template u =>
      ∃ w, (template.substitute (.pad d.params.names p.lastArgs)).merge u = .ok w)
      templates found → Calls path found t

/-- A call of the method with so many arguments, on a receiver of this type, has type `t`. The receiver
merges with the self type of the impl that is selected for it, and the assignment to the parameters
of the impl that makes it do so goes into what is returned. The arguments are counted. -/
inductive CallsMethod (receiver : Ty) (name : String) (given : Nat) (t : Ty) : Prop
  | mk {traitPath : Option Path} {d : ImplSignature} {f : Signature} {found : Substitution} :
    s.Offers traitPath receiver.forget name d f → d.bindSelf? receiver.forget = some found →
    (∃ w, (d.selfType.substitute found).merge receiver.forget = .ok w) →
    f.params.names = [] → f.args.length = given + 1 → f.ret.substitute found ≤ t →
    CallsMethod receiver name given t

variable {s}

theorem CallsMethod.mono {receiver : Ty} {name : String} {given : Nat} {t u : Ty}
    (h : s.CallsMethod receiver name given t) (hle : t ≤ u) : s.CallsMethod receiver name given u := by
  obtain ⟨hoffers, hbind, hself, hparams, hargs, hret⟩ := h
  exact ⟨hoffers, hbind, hself, hparams, hargs, hret.trans hle⟩

theorem calls_of_callType {path : Path} {found : List Ty} {span : Span} {t u : Ty}
    (h : s.callType path found span = .ok t) (hle : t ≤ u) : s.Calls path found u := by
  obtain ⟨key, f, hb, hf, hparams, hwritten, hcount, rfl⟩ | ⟨enumKey, index, hb, h⟩ :=
    callType_eq_ok.mp h
  · refine .function hb hf hparams hcount hle fun others span hothers => ?_
    exact (callType_function_eq_ok hb).mpr
      ⟨f, hf, hparams, hwritten, hcount.trans hothers.symm, rfl⟩
  · obtain ⟨d, v, templates, written, args, hd, hv, htemplates, hcount, hwritten, hargs, rfl⟩ :=
      exists_of_variantType h
    obtain ⟨hlen, -⟩ := EnumDef.written_args hwritten
    obtain ⟨hrefine, hfields⟩ := EnumDef.foldlM_refineArgs_explains hlen hcount hargs
    obtain ⟨p, rfl, hitem, hlast⟩ := Path.enumType_le hle
    refine .variant hb hd hv htemplates rfl hitem (hfields.imp fun _ _ hexplains => ?_)
    exact hexplains.merge (hrefine.length_eq ▸ hlen) hlast

end Symbols

/-- If the expression is a call, its type takes in what the callee gives. -/
def Expr.CalledIn (s : Symbols) (e : Expr) : Prop :=
  match e.kind with
  | .callPath path args =>
    ∃ t span, s.callType path (args.map (·.type)) span = .ok t ∧ t ≤ e.type
  | .callMethod receiver method args =>
    s.CallsMethod receiver.type method.name args.length e.type
  | _ => True

namespace Check
variable {env : Env}

theorem callsMethod_of_method {receiver : Expr} {method : Segment} {given : Nat} {span : Span}
    {c : Candidate} {frames after : Frames} {t : Ty}
    (h : (Check.method env receiver.type method given span).run frames = (.ok c, after))
    (hle : c.ret ≤ t) :
    env.symbols.CallsMethod (receiver.derefTimes c.derefs).type method.name given t := by
  obtain ⟨u, traitPath, hu, hforget, hoffers⟩ := method_offers h
  obtain ⟨found, hfound⟩ := hoffers.exists_bindSelf?
  obtain ⟨hparams, hargs⟩ := arity_of_method h
  rw [Candidate.ret, hforget, hfound, Option.getD_some] at hle
  rw [Expr.type_derefTimes hu]
  exact ⟨hoffers, hfound, ImplSignature.merge_of_bindSelf? hfound, hparams, hargs, hle⟩

theorem makes_calledIn (env : Env) : env.Makes (Expr.CalledIn env.symbols) where
  made span kind expected frames after found type h := by
    cases exprStep_of_run h with
    | callPath _ ht hu => exact ⟨_, span, ht, (Ty.le_of_mergeAt hu).2⟩
    | callMethod _ _ hc hu => exact callsMethod_of_method hc (Ty.le_of_mergeAt hu).2
    | _ => trivial
  retyped e t h hle := by
    obtain ⟨kind, type, span⟩ := e
    cases kind with
    | callPath path args =>
      obtain ⟨u, span, hu, hut⟩ := h
      exact ⟨u, span, hu, hut.trans hle⟩
    | callMethod receiver method args => exact Symbols.CallsMethod.mono h hle
    | _ => trivial
  dereferenced _ := trivial

end Check

/-- In a checked body the values in a call of a variant merge with the types of its fields. For the
arguments of functions and methods there is no such promise, only their number is right. -/
theorem Program.check_calls {p : Program} {options : CheckOptions} {root : Module}
    (hroot : p.check options = .ok root) :
    ∀ f ∈ root.functions options.implMethods, ∀ code ∈ f.code, ∀ e ∈ code.nodes,
      (∀ path args, e.kind = .callPath path args →
        p.symbols.Calls path (args.map (·.type)) e.type) ∧
      ∀ receiver method args, e.kind = .callMethod receiver method args →
        p.symbols.CallsMethod receiver.type method.name args.length e.type := by
  intro f hf code hcode e he
  have hcalled := check_nodes (Check.makes_calledIn ⟨p.symbols, options⟩) hroot f hf code hcode e he
  refine ⟨fun path args hkind => ?_, fun receiver method args hkind => ?_⟩
  · rw [Expr.CalledIn, hkind] at hcalled
    obtain ⟨t, span, ht, hle⟩ := hcalled
    exact Symbols.calls_of_callType ht hle
  · rw [Expr.CalledIn, hkind] at hcalled
    exact hcalled

/-- In source form, `fn take(x: u8)`, `struct W<T> { v: T }`, `enum Opt<T> { Some(T) }`,
`impl<T> W<T> { fn put(self: Self, x: T) -> T { x } }` and
`fn f(w: W<u8>) -> _ { take(true); w.put(true); Opt::Some(true) }`. -/
def Module.conflicting : Module :=
  let raw (kind : ExprKind) : Expr := ⟨kind, .wildcard, default⟩
  let named (name : String) : Expr := raw (.named (.bare name))
  let arg (name : String) (type : Ty) : FunctionArg := ⟨.identifier name .immutable default, type⟩
  let generic : Ty := .path (.bare "T")
  let given : List Expr := [raw (.literal (.bool true))]
  let put : Function := ⟨"put", ⟨[], []⟩, [arg "self" (.path (.bare "Self")), arg "x" generic],
    generic, some (named "x"), default⟩
  let taken := raw (.callPath (.bare "take") given)
  let putIn := raw (.callMethod (named "w") ⟨"put", []⟩ given)
  let wrapped := raw (.callPath (.ofNames false ["Opt", "Some"]) given)
  ⟨"", [], [
    .function ⟨"take", ⟨[], []⟩, [arg "x" (.primitive .u8)], .unit, none, default⟩,
    .struct ⟨"W", ⟨["T"], []⟩, [⟨"v", generic, default⟩], default⟩,
    .enum ⟨"Opt", ⟨["T"], []⟩, [⟨"Some", .tuple [generic], default⟩], default⟩,
    .impl ⟨⟨["T"], []⟩, none, .path ⟨false, [⟨"W", [generic]⟩], .unbound⟩,
      [⟨"put", .function put⟩], default⟩,
    .function ⟨"f", ⟨[], []⟩, [arg "w" (.path ⟨false, [⟨"W", [.primitive .u8]⟩], .unbound⟩)],
      .wildcard, some (raw (.block ⟨[taken, putIn], some wrapped, [], []⟩)), default⟩]⟩

theorem Program.check_calls_conflicting : ∃ p root, ofModule .conflicting = .ok p ∧
    p.check .standard = .ok root ∧ ∃ f ∈ root.functions true, ∃ code ∈ f.code,
      (∃ e ∈ code.nodes, ∃ path args, e.kind = .callPath path args ∧
        path.binding = .function "::take" ∧ p.symbols.Calls path (args.map (·.type)) e.type) ∧
      (∃ e ∈ code.nodes, ∃ receiver args, e.kind = .callMethod receiver ⟨"put", []⟩ args ∧
        p.symbols.CallsMethod receiver.type "put" args.length e.type) ∧
      ∃ e ∈ code.nodes, ∃ path args, e.kind = .callPath path args ∧
        path.binding = .variant "::Opt" 0 ∧ p.symbols.Calls path (args.map (·.type)) e.type := by
  refine ⟨_, _, rfl, rfl, _, .tail _ (.tail _ (.head _)), _, rfl, ⟨_, .tail _ (.head _), _, _, rfl, rfl,
    ?_⟩, ⟨_, .tail _ (.tail _ (.tail _ (.head _))), _, _, rfl, ?_⟩, ⟨_, .tail _ (.tail _ (.tail _
    (.tail _ (.tail _ (.tail _ (.head _)))))), _, _, rfl, rfl, ?_⟩⟩
  · exact (@check_calls _ .standard _ rfl _ (.tail _ (.tail _ (.head _))) _ rfl _
      (.tail _ (.head _))).1 _ _ rfl
  · exact (@check_calls _ .standard _ rfl _ (.tail _ (.tail _ (.head _))) _ rfl _
      (.tail _ (.tail _ (.tail _ (.head _))))).2 _ ⟨"put", []⟩ _ rfl
  · exact (@check_calls _ .standard _ rfl _ (.tail _ (.tail _ (.head _))) _ rfl _
      (.tail _ (.tail _ (.tail _ (.tail _ (.tail _ (.tail _ (.head _)))))))).1 _ _ rfl

/-- But a `bool` is taken for the `u8` of the function and for the `T` of a `W<u8>`. -/
theorem Program.check_accepts_conflicting : ∃ p root, ofModule .conflicting = .ok p ∧
    p.check .standard = .ok root ∧ ∃ f ∈ root.functions true, ∃ code ∈ f.code,
      (∃ e ∈ code.nodes, ∃ path args key d, e.kind = .callPath path args ∧
        path.binding = .function key ∧ p.symbols.functions.get? key = some d ∧
        ¬ List.Forall₂ (fun t a => ∃ w, t.merge a.type = .ok w) d.args args) ∧
      ∃ e ∈ code.nodes, ∃ receiver method args d g found, e.kind = .callMethod receiver method args ∧
        p.symbols.Offers none receiver.type.forget method.name d g ∧
        d.bindSelf? receiver.type.forget = some found ∧
        ¬ List.Forall₂ (fun t a => ∃ w, (t.substitute found).merge a.type = .ok w) g.args.tail
          args := by
  refine ⟨_, _, rfl, rfl, _, .tail _ (.tail _ (.head _)), _, rfl, ⟨_, .tail _ (.head _), _, _, _, _, rfl,
    rfl, rfl, ?_⟩, _, .tail _ (.tail _ (.tail _ (.head _))), _, _, _, _, _, _, rfl, ⟨rfl, rfl⟩, rfl, ?_⟩
  · rintro (_ | ⟨⟨w, hw⟩, -⟩)
    cases hw
  · rintro (_ | ⟨⟨w, hw⟩, -⟩)
    cases hw

end BorrowLang
