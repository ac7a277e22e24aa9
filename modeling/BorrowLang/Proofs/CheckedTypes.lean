import BorrowLang.Proofs.CheckedFunctions
import BorrowLang.Proofs.DeclaredTypes
import BorrowLang.Proofs.ExprSteps
import BorrowLang.Proofs.FrameTypes
import BorrowLang.Proofs.MethodSearch
import BorrowLang.Proofs.Places

/-!
A property that types have through their parts holds of all types that a check gives to the parts of
a body, as soon as it holds of those that come in from outside: the written ones, those of the
symbols and those that methods return.
-/
namespace BorrowLang

namespace Ty.Compositional
variable {P : Binding → Prop} {Q : Ty → Prop} (hQ : Compositional P Q)
include hQ

theorem derefs? {n : Nat} {t u : Ty} (ht : Q t) (h : t.derefs? n = some u) : Q u := by
  induction n generalizing t with
  | zero => exact Option.some.inj h ▸ ht
  | succ n ih =>
    obtain ⟨inner, hi, h⟩ := Option.bind_eq_some_iff.mp h
    exact ih (hQ.pointee? ht hi) h

/-- What a method is found for is the type of its receiver without references and parameters. -/
theorem receiver {env : Env} {t : Ty} {method : Segment} {given : Nat} {span : Span} {c : Candidate}
    {frames after : Frames} (ht : Q t)
    (h : (Check.method env t method given span).run frames = (.ok c, after)) : Q c.receiver := by
  obtain ⟨-, u, hu, hm⟩ := Check.method_eq_ok h
  refine hQ.derefs? (hQ.resolveArgs hQ (fun name v _ hv => ?_) ht hu) (Env.method_eq_ok_iff.mp hm).2.1
  unfold Frames.typeParam at hv
  split_ifs at hv
  cases hv
  exact hQ.wildcard

theorem letType {value : Expr} {declared t : Ty} {span : Span} (hv : Q value.type)
    (hd : Q declared) (h : value.letType declared span = .ok t) : Q t := by
  unfold Expr.letType at h
  split at h
  · contradiction
  · exact hQ.mergeAt hd hv h

theorem pointee {value : Expr} {t : Ty} (hv : Q value.type) (h : value.pointee = .ok t) : Q t := by
  unfold Expr.pointee at h
  split at h
  · next hk =>
    obtain rfl := Except.ok.inj h
    exact hQ.borrow.mp (hk ▸ hv)
  · obtain rfl := Except.ok.inj h
    exact hQ.wildcard
  · contradiction

theorem tupleType {items : List Expr} (h : ∀ e ∈ items, Q e.type) : Q (Expr.tupleType items) := by
  unfold Expr.tupleType
  split
  · exact hQ.unit
  · exact hQ.tuple.mpr (List.forall_mem_map.mpr h)

theorem binaryType {op : BinaryOp} {left right t : Ty} {span : Span} (hl : Q left) (hr : Q right)
    (h : op.type left right span = .ok t) : Q t := by
  simp only [BinaryOp.type, Result.bind_eq_ok, Result.pure_eq_ok] at h
  obtain ⟨operand, ho, rfl⟩ := h
  split
  · exact hQ.primitive .bool
  · exact hQ.mergeAt hl hr ho

end Ty.Compositional

/-- The type that a `let` or a cast is written with. -/
def ExprKind.declared? : ExprKind → Option Ty
  | .letIn _ t _ | .cast _ t => some t
  | _ => none

/-- The types of the expression itself, its own and the one that it is written with. -/
structure Expr.TypesHave (Q : Ty → Prop) (e : Expr) : Prop where
  own : Q e.type
  declared : ∀ t ∈ e.kind.declared?, Q t

theorem types_of_exprNodes {Q : Ty → Prop} {es : List Expr} (h : ∀ x ∈ exprNodes es, x.TypesHave Q) :
    ∀ e ∈ es, Q e.type := by
  induction es with
  | nil => exact List.forall_mem_nil _
  | cons e es ih =>
    obtain ⟨he, hes⟩ := List.forall_mem_append.mp h
    exact List.forall_mem_cons.mpr ⟨(he e e.mem_nodes_self).own, ih hes⟩

theorem Expr.derefTimes_typesHave {P : Binding → Prop} {Q : Ty → Prop} (hQ : Ty.Compositional P Q)
    {n : Nat} {e : Expr} (h : ∀ x ∈ e.nodes, x.TypesHave Q) :
    ∀ x ∈ (e.derefTimes n).nodes, x.TypesHave Q :=
  forall_mem_nodes_derefTimes (P := TypesHave Q) (fun _ hx => ⟨hQ.peel hx.own, nofun⟩) n h

/-- Whatever types a check takes from outside a body have the property `Q`, where what is written has
`W` and the expressions that come out have `N`. -/
structure Env.Brings (env : Env) (P : Binding → Prop) (D : List String → Ty → Prop) (Q : Ty → Prop)
    (W : Phrase → Prop) (N : ExprKind → Prop) : Prop where
  declares : env.symbols.Declares P D Q
  annotated : ∀ t, W (.annotated t) → Q t
  suffix : ∀ t, W (.suffix t) → Q t
  type : env.ResolvesAs (fun t => W (.type t)) Q
  named : ∀ path : Path, W (.value path) → N (.named path) → path.Constructs → path.ArgsHave Q
  called : ∀ (path : Path) (args : List Expr), W (.item path) → N (.callPath path args) →
    path.Constructs → path.ArgsHave Q
  method : ∀ (receiver : Expr) (method : Segment) (args : List Expr) (span : Span)
    (frames after : Frames) (c : Candidate), Q receiver.type →
      (Check.method env receiver.type method args.length span).run frames = (.ok c, after) →
      N (.callMethod (receiver.derefTimes c.derefs) method args) → Q c.ret

namespace Env.Brings
variable {env : Env} {P : Binding → Prop} {D : List String → Ty → Prop} {Q : Ty → Prop}
  {W : Phrase → Prop} {N : ExprKind → Prop} (h : env.Brings P D Q W N)
include h

theorem mergeAt {t u v : Ty} {span : Span} (ht : Q t) (hu : Q u)
    (hm : t.mergeAt u span = .ok v) : Q v := h.declares.compositional.mergeAt ht hu hm

theorem ofPhrases {e : Expr} (hp : ∀ a ∈ e.phrases, W a) : Q e.type := by
  obtain ⟨kind, type, span⟩ := e
  exact h.annotated type (hp _ (.head _))

theorem literal {value : Literal} (hp : ∀ a ∈ value.phrases, W a) : Q value.type := by
  have hwildcard := h.declares.compositional.wildcard
  have hprimitive := h.declares.compositional.primitive
  cases value with
  | int n suffix | float n suffix =>
    cases suffix with
    | none => exact hwildcard
    | some t => exact h.suffix t (hp (.suffix t) (.head _))
  | bool _ | char _ => exact hprimitive _
  | string _ => exact h.declares.compositional.borrow.mpr (hprimitive _)

end Env.Brings

/-! ### Patterns -/

namespace Check

section
variable {s : Symbols} {P : Binding → Prop} {D : List String → Ty → Prop} {Q : Ty → Prop}

mutual

theorem pattern_typesHave (hs : s.Declares P D Q) : ∀ (p : Pattern) {t : Ty} {frames after : Frames},
    Q t → frames.TypesHave Q →
      (pattern s p t).run frames = (.ok (), after) → after.TypesHave Q
  | .wildcard _, t, frames, after, ht, hf, h => by
    simp only [pattern, pure_eq_ok] at h
    exact h.2 ▸ hf
  | .identifier name mutability span, t, frames, after, ht, hf, h => declare_typesHave hf ht h
  | .literal value span, t, frames, after, ht, hf, h => by
    simp only [pattern, ofResult_eq_ok] at h
    exact h.2 ▸ hf
  | .tuple items span, t, frames, after, ht, hf, h => by
    simp only [pattern, bind_eq_ok, ofResult_eq_ok] at h
    obtain ⟨ts, _, ⟨hts, rfl⟩, h⟩ := h
    exact patterns_typesHave hs items (hs.compositional.tupleParts ht hts) hf h
  | .reference inner span, t, frames, after, ht, hf, h => by
    simp only [pattern, bind_eq_ok, ofResult_eq_ok] at h
    obtain ⟨u, _, ⟨hu, rfl⟩, h⟩ := h
    exact pattern_typesHave hs inner (hs.compositional.referencePart ht hu) hf h
  | .variant path items span, t, frames, after, ht, hf, h => by
    simp only [pattern, bind_eq_ok, ofResult_eq_ok] at h
    obtain ⟨ts, _, ⟨hts, rfl⟩, h⟩ := h
    exact patterns_typesHave hs items (hs.variantParts ht hts) hf h
  | .fields path fields span, t, frames, after, ht, hf, h => by
    simp only [pattern, bind_eq_ok, ofResult_eq_ok] at h
    obtain ⟨parts, _, ⟨hparts, rfl⟩, h⟩ := h
    exact fieldPatterns_typesHave hs fields (hs.namedParts ht hparts) hf h

theorem patterns_typesHave (hs : s.Declares P D Q) : ∀ (ps : List Pattern) {ts : List Ty}
    {frames after : Frames}, (∀ t ∈ ts, Q t) → frames.TypesHave Q →
      (patterns s ps ts).run frames = (.ok (), after) → after.TypesHave Q
  | [], ts, frames, after, ht, hf, h => by
    simp only [patterns, pure_eq_ok] at h
    exact h.2 ▸ hf
  | p :: ps, [], frames, after, ht, hf, h => by
    simp only [patterns, pure_eq_ok] at h
    exact h.2 ▸ hf
  | p :: ps, t :: ts, frames, after, ht, hf, h => by
    simp only [patterns, bind_eq_ok] at h
    obtain ⟨_, mid, hp, hps⟩ := h
    obtain ⟨ht, hts⟩ := List.forall_mem_cons.mp ht
    exact patterns_typesHave hs ps hts (pattern_typesHave hs p ht hf hp) hps

theorem fieldPatterns_typesHave (hs : s.Declares P D Q) {path : Path} {span : Span}
    {parts : List (String × Ty)} : ∀ (fields : List (String × Pattern)) {frames after : Frames},
      (∀ part ∈ parts, Q part.2) → frames.TypesHave Q →
      (fieldPatterns s path span parts fields).run frames = (.ok (), after) →
        after.TypesHave Q
  | [], frames, after, hparts, hf, h => by
    simp only [fieldPatterns, pure_eq_ok] at h
    exact h.2 ▸ hf
  | (name, p) :: rest, frames, after, hparts, hf, h => by
    rw [fieldPatterns] at h
    cases hl : parts.lookup name with
    | none =>
      simp only [hl, bind_eq_ok] at h
      obtain ⟨_, _, hthrow, -⟩ := h
      cases hthrow
    | some t =>
      simp only [hl, bind_eq_ok] at h
      obtain ⟨_, mid, hp, hrest⟩ := h
      have ht : Q t := hparts _ (mem_of_lookup_eq_some hl)
      exact fieldPatterns_typesHave hs rest hparts (pattern_typesHave hs p ht hf hp) hrest

end

theorem eachPattern_typesHave (hs : s.Declares P D Q) {ps : List Pattern} {t : Ty}
    {frames after : Frames} (ht : Q t) (hf : frames.TypesHave Q)
    (h : (eachPattern s ps t).run frames = (.ok (), after)) : after.TypesHave Q := by
  induction ps generalizing frames with
  | nil =>
    simp only [eachPattern, pure_eq_ok] at h
    exact h.2 ▸ hf
  | cons p ps ih =>
    simp only [eachPattern, bind_eq_ok] at h
    obtain ⟨_, mid, hp, hps⟩ := h
    exact ih (pattern_typesHave hs p ht hf hp) hps

end

/-! ### Expressions -/

section
variable {env : Env} {P : Binding → Prop} {D : List String → Ty → Prop} {Q : Ty → Prop}
  {W : Phrase → Prop} {N : ExprKind → Prop}

mutual

theorem expr_typesHave (hb : env.Brings P D Q W N) : ∀ (e : Expr) {expected : Ty}
    {frames after : Frames} {checked : Expr}, (∀ a ∈ e.phrases, W a) → Q expected →
    frames.TypesHave Q → (expr env e expected).run frames = (.ok checked, after) →
    (∀ x ∈ checked.nodes, N x.kind) →
      (∀ x ∈ checked.nodes, x.TypesHave Q) ∧ after.TypesHave Q
  | ⟨kind, _, span⟩, expected, frames, after, checked, hp, ht, hf, h, hn => by
    simp only [expr, bind_eq_ok, pure_eq_ok] at h
    obtain ⟨⟨found, type⟩, _, hk, rfl, rfl⟩ := h
    rw [Expr.nodes, List.forall_mem_cons] at hn ⊢
    obtain ⟨htype, hdeclared, hnodes, hafter⟩ :=
      exprKind_typesHave hb span kind (List.forall_mem_cons.mp hp).2 ht hf hk hn.1 hn.2
    exact ⟨⟨⟨htype, hdeclared⟩, hnodes⟩, hafter⟩
termination_by structural e => e

/-- What is merged into the type of the whole comes from its parts, from what is expected of it,
from the symbols or from a method. -/
theorem exprKind_typesHave (hb : env.Brings P D Q W N) (span : Span) : ∀ (kind : ExprKind)
    {expected : Ty} {frames after : Frames} {found : ExprKind} {type : Ty},
    (∀ a ∈ kind.phrases, W a) → Q expected → frames.TypesHave Q →
    (exprKind env span kind expected).run frames = (.ok (found, type), after) → N found →
    (∀ x ∈ found.nodes, N x.kind) →
      Q type ∧ (∀ t ∈ found.declared?, Q t) ∧ (∀ x ∈ found.nodes, x.TypesHave Q) ∧
        after.TypesHave Q
  | .block ⟨statements, none, traits, aliases⟩, expected, frames, after, found, type, hp,
      ht, hf, h, _, hn => by
    simp only [ExprKind.phrases, List.forall_mem_append] at hp
    obtain ⟨⟨⟨-, haliases⟩, hstatements⟩, -⟩ := hp
    have haliases : ∀ a ∈ aliases, W (.type a.2) :=
      fun a ha => haliases _ (List.mem_map_of_mem ha)
    cases exprStep_of_run h with
    | blockUnit ho hst =>
      simp only [ExprKind.nodes, optionNodes, List.append_nil] at hn ⊢
      have hopened :=
        openBlock_typesHave (hf.cons (Frame.typesHave_empty _)) hb.type haliases ho
      obtain ⟨hnodes, hmid⟩ := exprs_typesHave hb _ hstatements hopened hst hn
      refine ⟨?_, nofun, hnodes, hmid.tail⟩
      split
      · exact hb.declares.compositional.unit
      · exact ht
  | .block ⟨statements, some tail, traits, aliases⟩, expected, frames, after, found, type, hp,
      ht, hf, h, _, hn => by
    simp only [ExprKind.phrases, List.forall_mem_append] at hp
    obtain ⟨⟨⟨-, haliases⟩, hstatements⟩, htail⟩ := hp
    have haliases : ∀ a ∈ aliases, W (.type a.2) :=
      fun a ha => haliases _ (List.mem_map_of_mem ha)
    cases exprStep_of_run h with
    | blockTail ho hst hm he hu =>
      simp only [ExprKind.nodes, optionNodes, List.forall_mem_append] at hn ⊢
      have hopened :=
        openBlock_typesHave (hf.cons (Frame.typesHave_empty _)) hb.type haliases ho
      obtain ⟨hnodes, hmid⟩ := exprs_typesHave hb _ hstatements hopened hst hn.1
      have hmerged := hb.mergeAt (hb.ofPhrases htail) ht hm
      obtain ⟨hlast, hafter⟩ := expr_typesHave hb _ htail hmerged hmid he hn.2
      exact ⟨hb.mergeAt ht (hlast _ (Expr.mem_nodes_self _)).own hu, nofun, ⟨hnodes, hlast⟩,
        hafter.tail⟩
  | .letIn pattern declared value, expected, frames, after, found, type, hp, ht, hf, h, _, hn => by
    simp only [ExprKind.phrases, List.forall_mem_cons, List.forall_mem_append] at hp
    obtain ⟨⟨hdeclared, -⟩, hvalue⟩ := hp
    cases exprStep_of_run h with
    | letIn _ hd hv hlet hpat hu =>
      have hdeclared := hb.type _ _ _ _ hf hdeclared hd
      -- The value is annotated anew, and nothing in it changes but its own type.
      rw [ExprKind.nodes, Expr.nodes, List.forall_mem_cons] at hn ⊢
      obtain ⟨hnodes, hmid⟩ := expr_typesHave hb _ hvalue (hb.ofPhrases hvalue) hf hv
        (Expr.forall_mem_nodes.mpr hn)
      obtain ⟨hknown, hnodes⟩ := Expr.forall_mem_nodes.mp hnodes
      have hlocal := hb.declares.compositional.letType hknown.own hdeclared hlet
      exact ⟨hb.mergeAt ht hb.declares.compositional.unit hu,
        fun _ hd => Option.some.inj hd ▸ hlocal, ⟨⟨hlocal, hknown.declared⟩, hnodes⟩,
        pattern_typesHave hb.declares pattern hlocal hmid hpat⟩
  | .assign place value, expected, frames, after, found, type, hp, ht, hf, h, _, hn => by
    obtain ⟨hplace, hvalue⟩ := List.forall_mem_append.mp hp
    cases exprStep_of_run h with
    | assign hpl hv hu =>
      rw [ExprKind.nodes, List.forall_mem_append] at hn ⊢
      obtain ⟨hplaces, hmid⟩ := expr_typesHave hb _ hplace (hb.ofPhrases hplace) hf hpl hn.1
      obtain ⟨hvalues, hafter⟩ := expr_typesHave hb _ hvalue (hb.ofPhrases hvalue) hmid hv hn.2
      exact ⟨hb.mergeAt ht hb.declares.compositional.unit hu, nofun, ⟨hplaces, hvalues⟩, hafter⟩
  | .ret value, expected, frames, after, found, type, hp, ht, hf, h, _, hn => by
    cases exprStep_of_run h with
    | ret hv => exact ⟨ht, nofun, optional_typesHave hb _ hp hf hv hn⟩
  | .cond condition thenBranch none, expected, frames, after, found, type, hp,
      ht, hf, h, _, hn => by
    simp only [ExprKind.phrases, List.forall_mem_append] at hp
    obtain ⟨⟨hcondition, hthen⟩, -⟩ := hp
    cases exprStep_of_run h with
    | condUnit hc hth hu =>
      simp only [ExprKind.nodes, optionNodes, List.append_nil, List.forall_mem_append] at hn ⊢
      obtain ⟨hconditions, hmid⟩ :=
        expr_typesHave hb _ hcondition (hb.ofPhrases hcondition) hf hc hn.1
      obtain ⟨hthens, hafter⟩ := expr_typesHave hb _ hthen (hb.ofPhrases hthen) hmid hth hn.2
      exact ⟨hb.mergeAt ht hb.declares.compositional.unit hu, nofun, ⟨hconditions, hthens⟩, hafter⟩
  | .cond condition thenBranch (some elseBranch), expected, frames, after, found, type, hp,
      ht, hf, h, _, hn => by
    simp only [ExprKind.phrases, List.forall_mem_append] at hp
    obtain ⟨⟨hcondition, hthen⟩, helse⟩ := hp
    cases exprStep_of_run h with
    | condElse hc hth he hm hu =>
      simp only [ExprKind.nodes, optionNodes, List.forall_mem_append] at hn ⊢
      obtain ⟨hconditions, hmid⟩ :=
        expr_typesHave hb _ hcondition (hb.ofPhrases hcondition) hf hc hn.1.1
      obtain ⟨hthens, hmid⟩ := expr_typesHave hb _ hthen (hb.ofPhrases hthen) hmid hth hn.1.2
      obtain ⟨helses, hafter⟩ := expr_typesHave hb _ helse (hb.ofPhrases helse) hmid he hn.2
      have hmerged := hb.mergeAt ht (hthens _ (Expr.mem_nodes_self _)).own hm
      exact ⟨hb.mergeAt hmerged (helses _ (Expr.mem_nodes_self _)).own hu, nofun,
        ⟨⟨hconditions, hthens⟩, helses⟩, hafter⟩
  | .matchOn value arms, expected, frames, after, found, type, hp, ht, hf, h, _, hn => by
    obtain ⟨hvalue, harms⟩ := List.forall_mem_append.mp hp
    cases exprStep_of_run h with
    | matchOn hv ha =>
      rw [ExprKind.nodes, List.forall_mem_append] at hn ⊢
      obtain ⟨hvalues, hmid⟩ := expr_typesHave hb _ hvalue (hb.ofPhrases hvalue) hf hv hn.1
      obtain ⟨htype, hcodes, hafter⟩ := matchArms_typesHave hb span
        (hvalues _ (Expr.mem_nodes_self _)).own _ harms ht hmid ha hn.2
      exact ⟨htype, nofun, ⟨hvalues, hcodes⟩, hafter⟩
  | .callPath path args, expected, frames, after, found, type, hp, ht, hf, h, hself, hn => by
    obtain ⟨hpath, hargs⟩ := List.forall_mem_cons.mp hp
    cases exprStep_of_run h with
    | callPath ha hc hu =>
      obtain ⟨hnodes, hafter⟩ := exprs_typesHave hb _ hargs hf ha hn
      have hgiven := List.forall_mem_map.mpr (types_of_exprNodes hnodes)
      have hcall := hb.declares.callType hgiven (hb.called path _ hpath hself) hc
      exact ⟨hb.mergeAt ht hcall hu, nofun, hnodes, hafter⟩
  | .callMethod receiver ⟨name, types⟩ args, expected, frames, after, found, type, hp,
      ht, hf, h, hself, hn => by
    simp only [ExprKind.phrases, List.forall_mem_append] at hp
    obtain ⟨⟨-, hreceiver⟩, hargs⟩ := hp
    cases exprStep_of_run h with
    | callMethod hr ha hc hu =>
      rw [ExprKind.nodes, List.forall_mem_append] at hn ⊢
      obtain ⟨hreceivers, hmid⟩ := expr_typesHave hb _ hreceiver (hb.ofPhrases hreceiver) hf hr
        fun x hx => hn.1 x (Expr.nodes_subset_derefTimes _ _ hx)
      obtain ⟨hnodes, hafter⟩ := exprs_typesHave hb _ hargs hmid ha hn.2
      have hret := hb.method _ _ _ _ _ _ _ (hreceivers _ (Expr.mem_nodes_self _)).own hc hself
      obtain ⟨rfl, -⟩ := method_eq_ok hc
      exact ⟨hb.mergeAt ht hret hu, nofun,
        ⟨Expr.derefTimes_typesHave hb.declares.compositional hreceivers, hnodes⟩, hafter⟩
  | .callValue callee args, expected, frames, after, found, type, hp, ht, hf, h, _, hn => by
    obtain ⟨hcallee, hargs⟩ := List.forall_mem_append.mp hp
    cases exprStep_of_run h with
    | callValue hc ha =>
      rw [ExprKind.nodes, List.forall_mem_append] at hn ⊢
      obtain ⟨hcallees, hmid⟩ := expr_typesHave hb _ hcallee (hb.ofPhrases hcallee) hf hc hn.1
      obtain ⟨hnodes, hafter⟩ := exprs_typesHave hb _ hargs hmid ha hn.2
      exact ⟨ht, nofun, ⟨hcallees, hnodes⟩, hafter⟩
  | .named path, expected, frames, after, found, type, hp, ht, hf, h, hself, _ => by
    cases exprStep_of_run h with
    | localName _ hu =>
      obtain ⟨htype, hafter⟩ := useLocal_typesHave hf hb.declares.compositional ht hu
      exact ⟨htype, nofun, List.forall_mem_nil _, hafter⟩
    | itemName _ hv hu =>
      have hvalue := hb.declares.valueType (hb.named path (hp _ (.head _)) hself) hv
      exact ⟨hb.mergeAt ht hvalue hu, nofun, List.forall_mem_nil _, hf⟩
  | .field object name, expected, frames, after, found, type, hp, ht, hf, h, _, hn => by
    cases exprStep_of_run h with
    | fieldLater ho _ => exact ⟨ht, nofun, expr_typesHave hb _ hp (hb.ofPhrases hp) hf ho hn⟩
    | field ho _ hm hu =>
      obtain ⟨hnodes, hafter⟩ := expr_typesHave hb _ hp (hb.ofPhrases hp) hf ho
        fun x hx => hn x (Expr.nodes_subset_derefTimes _ _ hx)
      have hmember := hb.declares.memberType (hnodes _ (Expr.mem_nodes_self _)).own hm
      exact ⟨hb.mergeAt ht hmember hu, nofun,
        Expr.derefTimes_typesHave hb.declares.compositional hnodes, hafter⟩
  | .index value index, expected, frames, after, found, type, hp, ht, hf, h, _, hn => by
    obtain ⟨hvalue, hindex⟩ := List.forall_mem_append.mp hp
    cases exprStep_of_run h with
    | index hv hi hu =>
      rw [ExprKind.nodes, List.forall_mem_append] at hn ⊢
      obtain ⟨hvalues, hmid⟩ := expr_typesHave hb _ hvalue (hb.ofPhrases hvalue) hf hv hn.1
      obtain ⟨hindexes, hafter⟩ := expr_typesHave hb _ hindex (hb.ofPhrases hindex) hmid hi hn.2
      have helement := hb.declares.compositional.element (hvalues _ (Expr.mem_nodes_self _)).own
      exact ⟨hb.mergeAt ht helement hu, nofun, ⟨hvalues, hindexes⟩, hafter⟩
  | .deref value, expected, frames, after, found, type, hp, ht, hf, h, _, hn => by
    cases exprStep_of_run h with
    | deref hv hpt hu =>
      obtain ⟨hnodes, hafter⟩ := expr_typesHave hb _ hp (hb.ofPhrases hp) hf hv hn
      have hpointee := hb.declares.compositional.pointee (hnodes _ (Expr.mem_nodes_self _)).own hpt
      exact ⟨hb.mergeAt ht hpointee hu, nofun, hnodes, hafter⟩
  | .borrow kind value, expected, frames, after, found, type, hp, ht, hf, h, _, hn => by
    have hbehind : Q (expected.pointee?.getD .wildcard) := by
      cases hpointee : expected.pointee? with
      | none => exact hb.declares.compositional.wildcard
      | some inner => exact hb.declares.compositional.pointee? ht hpointee
    cases exprStep_of_run h with
    | borrow hm hv hu =>
      have hinside := hb.mergeAt (hb.ofPhrases hp) hbehind hm
      obtain ⟨hnodes, hafter⟩ := expr_typesHave hb _ hp hinside hf hv hn
      have hvalue := (hnodes _ (Expr.mem_nodes_self _)).own
      exact ⟨hb.mergeAt ht (hb.declares.compositional.borrow.mpr hvalue) hu, nofun, hnodes, hafter⟩
  | .cast value target, expected, frames, after, found, type, hp, ht, hf, h, _, hn => by
    obtain ⟨htarget, hvalue⟩ := List.forall_mem_cons.mp hp
    cases exprStep_of_run h with
    | cast hr hv hu =>
      have htarget := hb.type _ _ _ _ hf htarget hr
      obtain ⟨hnodes, hafter⟩ := expr_typesHave hb _ hvalue (hb.ofPhrases hvalue) hf hv hn
      exact ⟨hb.mergeAt ht htarget hu, fun _ hd => Option.some.inj hd ▸ htarget, hnodes, hafter⟩
  | .tuple items, expected, frames, after, found, type, hp, ht, hf, h, _, hn => by
    cases exprStep_of_run h with
    | tuple hi hu =>
      obtain ⟨hnodes, hafter⟩ := exprs_typesHave hb _ hp hf hi hn
      have htuple := hb.declares.compositional.tupleType (types_of_exprNodes hnodes)
      exact ⟨hb.mergeAt ht htuple hu, nofun, hnodes, hafter⟩
  | .literal value, expected, frames, after, found, type, hp, ht, hf, h, _, _ => by
    cases exprStep_of_run h with
    | literal hu =>
      exact ⟨hb.mergeAt ht (hb.literal hp) hu, nofun, List.forall_mem_nil _, hf⟩
  | .binary op left right, expected, frames, after, found, type, hp, ht, hf, h, _, hn => by
    obtain ⟨hleft, hright⟩ := List.forall_mem_append.mp hp
    cases exprStep_of_run h with
    | binary hlf hrt hop hu =>
      rw [ExprKind.nodes, List.forall_mem_append] at hn ⊢
      obtain ⟨hlefts, hmid⟩ := expr_typesHave hb _ hleft (hb.ofPhrases hleft) hf hlf hn.1
      obtain ⟨hrights, hafter⟩ := expr_typesHave hb _ hright (hb.ofPhrases hright) hmid hrt hn.2
      have htype := hb.declares.compositional.binaryType
        (hlefts _ (Expr.mem_nodes_self _)).own (hrights _ (Expr.mem_nodes_self _)).own hop
      exact ⟨hb.mergeAt ht htype hu, nofun, ⟨hlefts, hrights⟩, hafter⟩
termination_by structural kind => kind

theorem exprs_typesHave (hb : env.Brings P D Q W N) : ∀ (es : List Expr) {frames after : Frames}
    {checked : List Expr}, (∀ a ∈ exprPhrases es, W a) → frames.TypesHave Q →
    (exprs env es).run frames = (.ok checked, after) → (∀ x ∈ exprNodes checked, N x.kind) →
      (∀ x ∈ exprNodes checked, x.TypesHave Q) ∧ after.TypesHave Q
  | [], frames, after, checked, hp, hf, h, hn => by
    simp only [exprs, pure_eq_ok] at h
    obtain ⟨rfl, rfl⟩ := h
    exact ⟨List.forall_mem_nil _, hf⟩
  | e :: es, frames, after, checked, hp, hf, h, hn => by
    obtain ⟨he, hes⟩ := List.forall_mem_append.mp hp
    simp only [exprs, bind_eq_ok, pure_eq_ok] at h
    obtain ⟨e, _, hfirst, es, _, hrest, rfl, rfl⟩ := h
    rw [exprNodes, List.forall_mem_append] at hn ⊢
    obtain ⟨hnodes, hmid⟩ := expr_typesHave hb _ he (hb.ofPhrases he) hf hfirst hn.1
    obtain ⟨hothers, hafter⟩ := exprs_typesHave hb _ hes hmid hrest hn.2
    exact ⟨⟨hnodes, hothers⟩, hafter⟩
termination_by structural es => es

theorem optional_typesHave (hb : env.Brings P D Q W N) : ∀ (e : Option Expr)
    {frames after : Frames} {checked : Option Expr}, (∀ a ∈ optionPhrases e, W a) →
    frames.TypesHave Q → (optional env e).run frames = (.ok checked, after) →
    (∀ x ∈ optionNodes checked, N x.kind) →
      (∀ x ∈ optionNodes checked, x.TypesHave Q) ∧ after.TypesHave Q
  | none, frames, after, checked, hp, hf, h, hn => by
    simp only [optional, pure_eq_ok] at h
    obtain ⟨rfl, rfl⟩ := h
    exact ⟨List.forall_mem_nil _, hf⟩
  | some e, frames, after, checked, hp, hf, h, hn => by
    simp only [optional, bind_eq_ok, pure_eq_ok] at h
    obtain ⟨e, _, he, rfl, rfl⟩ := h
    exact expr_typesHave hb _ hp (hb.ofPhrases hp) hf he hn
termination_by structural e => e

theorem matchArms_typesHave (hb : env.Brings P D Q W N) (span : Span) {scrutinee : Ty}
    (hscrutinee : Q scrutinee) : ∀ (arms : List Arm) {expected : Ty} {frames after : Frames}
    {checked : List Arm} {type : Ty}, (∀ a ∈ armPhrases arms, W a) → Q expected →
    frames.TypesHave Q →
    (matchArms env span scrutinee arms expected).run frames = (.ok (checked, type), after) →
    (∀ x ∈ armNodes checked, N x.kind) →
      Q type ∧ (∀ x ∈ armNodes checked, x.TypesHave Q) ∧ after.TypesHave Q
  | [], expected, frames, after, checked, type, hp, ht, hf, h, hn => by
    simp only [matchArms, pure_eq_ok, Prod.mk.injEq] at h
    obtain ⟨⟨rfl, rfl⟩, rfl⟩ := h
    exact ⟨ht, List.forall_mem_nil _, hf⟩
  | ⟨patterns, guard, code⟩ :: rest, expected, frames, after, checked, type, hp, ht, hf, h, hn => by
    simp only [armPhrases, List.forall_mem_append] at hp
    obtain ⟨⟨⟨-, hguard⟩, hcode⟩, hrest⟩ := hp
    obtain ⟨_, arms, t, _, rfl, ⟨hpat, hg, hm, hc, hv⟩, hr⟩ := armStep_of_run h
    simp only [armNodes, List.forall_mem_append] at hn ⊢
    have hopened := eachPattern_typesHave hb.declares hscrutinee
      (hf.cons (Frame.typesHave_empty _)) hpat
    obtain ⟨hguards, hmid⟩ := optional_typesHave hb _ hguard hopened hg hn.1.1
    have hmerged := hb.mergeAt (hb.ofPhrases hcode) ht hm
    obtain ⟨hcodes, hlast⟩ := expr_typesHave hb _ hcode hmerged hmid hc hn.1.2
    have hnext := hb.mergeAt ht (hcodes _ (Expr.mem_nodes_self _)).own hv
    obtain ⟨htype, hothers, hafter⟩ :=
      matchArms_typesHave hb span hscrutinee _ hrest hnext hlast.tail hr hn.2
    exact ⟨htype, ⟨⟨hguards, hcodes⟩, hothers⟩, hafter⟩
termination_by structural arms => arms

end

/-! ### Functions -/

section
variable (hb : env.Brings P D Q W N)
include hb

theorem functionArgs_typesHave {span : Span} {args checked : List FunctionArg}
    {frames after : Frames} (hp : ∀ a ∈ args.flatMap FunctionArg.phrases, W a)
    (hf : frames.TypesHave Q)
    (h : (functionArgs env span args).run frames = (.ok checked, after)) :
    (∀ arg ∈ checked, Q arg.type) ∧ after.TypesHave Q := by
  induction args generalizing frames checked with
  | nil =>
    simp only [functionArgs, pure_eq_ok] at h
    obtain ⟨rfl, rfl⟩ := h
    exact ⟨List.forall_mem_nil _, hf⟩
  | cons arg rest ih =>
    rw [List.flatMap_cons, List.forall_mem_append] at hp
    obtain ⟨harg, hrest⟩ := hp
    simp only [functionArgs, bind_eq_ok, resolveType_eq_ok, pure_eq_ok] at h
    obtain ⟨t, _, ⟨ht, rfl⟩, _, mid, hpat, others, _, hr, rfl, rfl⟩ := h
    have ht := hb.type _ _ _ _ hf (harg _ (.head _)) ht
    obtain ⟨hothers, hafter⟩ :=
      ih hrest (pattern_typesHave hb.declares arg.pattern ht hf hpat) hr
    exact ⟨List.forall_mem_cons.mpr ⟨ht, hothers⟩, hafter⟩

/-- The types of a function that comes out of a check, and if all expressions in its body have `N`,
those of the body. -/
theorem function_typesHave {d checked : Function} (h : d.CheckedTo env checked)
    (hp : ∀ a ∈ d.phrases, W a) :
    checked.params = d.params ∧ (∀ arg ∈ checked.args, Q arg.type) ∧
      ∀ code ∈ checked.code, (∀ x ∈ code.nodes, N x.kind) → ∀ x ∈ code.nodes, x.TypesHave Q := by
  obtain ⟨frames, after, hbetween, h⟩ := h
  obtain ⟨hhead, hcode⟩ := List.forall_mem_append.mp hp
  obtain ⟨hret, hcode⟩ := List.forall_mem_cons.mp hcode
  have hargs := (List.forall_mem_append.mp hhead).2
  obtain ⟨ret, mid, hr, ha, hkept, hbody⟩ := function_eq_ok env h
  have hopened : (d.openedIn frames).TypesHave Q := (d.betweenItems_openedIn hbetween).typesHave
  have hret := hb.type _ _ _ _ hopened hret hr
  obtain ⟨hargs, hmid⟩ := functionArgs_typesHave hb hargs hopened ha
  refine ⟨by rw [hkept], hargs, ?_⟩
  obtain ⟨-, hnone⟩ | ⟨body, code, last, hc, hcode', he⟩ := hbody
  · exact fun code hcode => absurd (hnone ▸ hcode) (Option.not_mem_none code)
  · rw [hc] at hcode
    rw [hcode']
    rintro _ ⟨⟩ hn
    exact (expr_typesHave hb body hcode hret hmid he hn).1

end

end

end Check
end BorrowLang
