import BorrowLang.Proofs.CheckedNodes

/-! In an accepted program the annotations of an expression and of its parts agree. -/
namespace BorrowLang

/-- The type of the whole takes in what is known of the parts. -/
def ExprKind.Agrees (s : Symbols) (t : Ty) : ExprKind → Prop
  | .block ⟨_, some tail, _, _⟩ => tail.type ≤ t
  | .letIn _ declared value => value.type = declared ∧ t = .unit
  | .assign _ _ => t = .unit
  | .cond _ thenBranch (some elseBranch) => thenBranch.type ≤ t ∧ elseBranch.type ≤ t
  | .cond _ _ none => t = .unit
  | .matchOn _ arms => ∀ arm ∈ arms, arm.code.type ≤ t
  | .callPath path _ =>
    ∀ key, path.binding = .function key → ∃ f, s.functions.get? key = some f ∧ f.ret ≤ t
  -- A relative path of one name is a local, whatever it is bound to.
  | .named path => path.soleName? = none →
    ∀ key, path.binding = .staticItem key → ∃ u, s.statics.get? key = some u ∧ u ≤ t
  | .index value _ => ∀ inner size, value.type.stripped = .array inner size → inner ≤ t
  | .deref value => ∀ inner, value.type.pointee? = some inner → inner ≤ t
  | .borrow kind value => .borrow kind value.type ≤ t
  | .cast _ target => target ≤ t
  | .tuple items => if items.isEmpty then .unit ≤ t else .tuple (items.map (·.type)) ≤ t
  | .literal value => value.type ≤ t
  | .binary op left right =>
    if op.yieldsBool then .primitive .bool ≤ t else left.type ≤ t ∧ right.type ≤ t
  | .block ⟨_, none, _, _⟩ | .ret _ | .callMethod .. | .callValue .. | .field .. => True

/-- A later refinement of the whole, as a `let` makes it, breaks no agreement. -/
theorem ExprKind.Agrees.mono {s : Symbols} {t u : Ty} {kind : ExprKind} (h : kind.Agrees s t)
    (hle : t ≤ u) : kind.Agrees s u := by
  have hunit : t = .unit → u = .unit := by
    rintro rfl
    exact Ty.unit_le_iff.mp hle
  cases kind with
  | block body =>
    obtain ⟨statements, _ | tail, traits, aliases⟩ := body
    · trivial
    · exact h.trans hle
  | letIn pattern declared value => exact ⟨h.1, hunit h.2⟩
  | assign place value => exact hunit h
  | cond condition thenBranch elseBranch =>
    cases elseBranch with
    | none => exact hunit h
    | some elseBranch => exact ⟨h.1.trans hle, h.2.trans hle⟩
  | matchOn value arms => exact fun arm hm => (h arm hm).trans hle
  | callPath path args =>
    intro key hk
    obtain ⟨f, hf, hr⟩ := h key hk
    exact ⟨f, hf, hr.trans hle⟩
  | named path =>
    intro hl key hk
    obtain ⟨v, hv, hr⟩ := h hl key hk
    exact ⟨v, hv, hr.trans hle⟩
  | index value index => exact fun inner size hi => (h inner size hi).trans hle
  | deref value => exact fun inner hi => (h inner hi).trans hle
  | borrow kind value => exact h.trans hle
  | cast value target => exact h.trans hle
  | tuple items =>
    simp only [Agrees] at h ⊢
    split_ifs at h ⊢ <;> exact h.trans hle
  | literal value => exact h.trans hle
  | binary op left right =>
    simp only [Agrees] at h ⊢
    split_ifs at h ⊢
    · exact h.trans hle
    · exact ⟨h.1.trans hle, h.2.trans hle⟩
  | ret value => trivial
  | callMethod receiver method args => trivial
  | callValue callee args => trivial
  | field object name => trivial

namespace Expr

/-- The annotation agrees with those of the parts. -/
def Consistent (s : Symbols) (e : Expr) : Prop := e.kind.Agrees s e.type

theorem consistent_deref (s : Symbols) (e : Expr) :
    Consistent s ⟨.deref e, e.type.peel, e.span⟩ := by
  intro inner h
  change inner ≤ e.type.peel
  rw [Ty.peel, h]
  exact le_rfl

theorem pointee_of_pointee? {value : Expr} {inner : Ty} (h : value.type.pointee? = some inner) :
    value.pointee = .ok inner := by
  unfold pointee
  cases ht : value.type <;> simp_all [Ty.pointee?]

end Expr

theorem Symbols.valueType_static {s : Symbols} {path : Path} {span : Span} {t : Ty} {key : Key}
    (h : s.valueType path span = .ok t) (hk : path.binding = .staticItem key) :
    s.statics.get? key = some t := by
  simp only [valueType, hk, Table.find_eq_ok] at h
  exact h

namespace Check
variable {env : Env}

/-- Every arm is below the whole, which the later arms refine further. -/
theorem matchArms_le {span : Span} {scrutinee : Ty} {arms : List Arm} {expected : Ty}
    {frames after : Frames} {checked : List Arm} {type : Ty}
    (h : (matchArms env span scrutinee arms expected).run frames = (.ok (checked, type), after)) :
    expected ≤ type ∧ ∀ arm ∈ checked, arm.code.type ≤ type := by
  induction arms generalizing expected frames after checked with
  | nil =>
    simp only [matchArms, pure_eq_ok, Prod.mk.injEq] at h
    obtain ⟨⟨rfl, rfl⟩, -⟩ := h
    exact ⟨le_rfl, List.forall_mem_nil _⟩
  | cons arm rest ih =>
    obtain ⟨_, arms, t, _, rfl, ⟨_, _, _, _, hu⟩, hr⟩ := armStep_of_run h
    obtain ⟨hle, harms⟩ := ih hr
    obtain ⟨he, hcode⟩ := Ty.le_of_mergeAt hu
    exact ⟨he.trans hle, List.forall_mem_cons.mpr ⟨hcode.trans hle, harms⟩⟩

/-- The annotation refines what was expected, and agrees with those of the parts. -/
theorem exprKind_agrees {span : Span} {kind : ExprKind} {expected : Ty} {frames after : Frames}
    {found : ExprKind} {type : Ty}
    (h : (exprKind env span kind expected).run frames = (.ok (found, type), after)) :
    expected ≤ type ∧ found.Agrees env.symbols type := by
  cases exprStep_of_run h with
  | blockUnit _ _ =>
    refine ⟨?_, trivial⟩
    split_ifs with hw
    · rw [Ty.isWildcard_iff.mp hw]
      exact Ty.wildcard_le _
    · exact le_rfl
  | blockTail _ _ _ _ hu => exact Ty.le_of_mergeAt hu
  | letIn _ _ _ _ _ hu =>
    obtain ⟨hle, hunit⟩ := Ty.le_of_mergeAt hu
    exact ⟨hle, rfl, Ty.unit_le_iff.mp hunit⟩
  | assign _ _ hu => exact (Ty.le_of_mergeAt hu).imp_right Ty.unit_le_iff.mp
  | ret _ => exact ⟨le_rfl, trivial⟩
  | condUnit _ _ hu => exact (Ty.le_of_mergeAt hu).imp_right Ty.unit_le_iff.mp
  | condElse _ _ _ hm hu =>
    obtain ⟨hle, hthen⟩ := Ty.le_of_mergeAt hm
    obtain ⟨hle', helse⟩ := Ty.le_of_mergeAt hu
    -- The branch merged first is below what the other one made of the whole.
    exact ⟨hle.trans hle', hthen.trans hle', helse⟩
  | matchOn _ ha => exact matchArms_le ha
  | callPath _ ht hu =>
    obtain ⟨hle, hret⟩ := Ty.le_of_mergeAt hu
    refine ⟨hle, fun key hk => ?_⟩
    obtain ⟨f, hf, -, -, -, rfl⟩ := (Symbols.callType_function_eq_ok hk).mp ht
    exact ⟨f, hf, hret⟩
  | callMethod _ _ _ hu => exact ⟨(Ty.le_of_mergeAt hu).1, trivial⟩
  | callValue _ _ => exact ⟨le_rfl, trivial⟩
  | localName hp h =>
    obtain ⟨v, -, hu, -⟩ := useLocal_eq_ok.mp h
    refine ⟨(Ty.le_of_mergeAt hu).1, fun hl => ?_⟩
    rw [hp] at hl
    contradiction
  | itemName _ ht hu =>
    obtain ⟨hle, hv⟩ := Ty.le_of_mergeAt hu
    exact ⟨hle, fun _ key hk => ⟨_, Symbols.valueType_static ht hk, hv⟩⟩
  | fieldLater _ _ => exact ⟨le_rfl, trivial⟩
  | field _ _ _ hu => exact ⟨(Ty.le_of_mergeAt hu).1, trivial⟩
  | index _ _ hu =>
    obtain ⟨hle, helement⟩ := Ty.le_of_mergeAt hu
    refine ⟨hle, fun inner size hs => ?_⟩
    rw [Ty.element, hs] at helement
    exact helement
  | deref _ ht hu =>
    obtain ⟨hle, hpointee⟩ := Ty.le_of_mergeAt hu
    refine ⟨hle, fun inner hi => ?_⟩
    rw [Expr.pointee_of_pointee? hi, Except.ok.injEq] at ht
    exact ht ▸ hpointee
  | borrow _ _ hu => exact Ty.le_of_mergeAt hu
  | cast _ _ hu => exact Ty.le_of_mergeAt hu
  | tuple _ hu =>
    obtain ⟨hle, ht⟩ := Ty.le_of_mergeAt hu
    refine ⟨hle, ?_⟩
    rw [Expr.tupleType] at ht
    rw [ExprKind.Agrees]
    split_ifs at ht ⊢ <;> exact ht
  | literal hu => exact Ty.le_of_mergeAt hu
  | binary _ _ ht hu =>
    obtain ⟨hle, hop⟩ := Ty.le_of_mergeAt hu
    simp only [BinaryOp.type, Result.bind_eq_ok, Result.pure_eq_ok] at ht
    obtain ⟨operand, ho, rfl⟩ := ht
    obtain ⟨hleft, hright⟩ := Ty.le_of_mergeAt ho
    refine ⟨hle, ?_⟩
    rw [ExprKind.Agrees]
    split_ifs at hop ⊢
    · exact hop
    · exact ⟨hleft.trans hop, hright.trans hop⟩

theorem makes_consistent (env : Env) : env.Makes (Expr.Consistent env.symbols) where
  made _ _ _ _ _ _ _ h := (exprKind_agrees h).2
  retyped _ _ h hle := ExprKind.Agrees.mono h hle
  dereferenced := Expr.consistent_deref env.symbols

theorem expected_le {e : Expr} {expected : Ty} {frames after : Frames} {checked : Expr}
    (h : (expr env e expected).run frames = (.ok checked, after)) : expected ≤ checked.type := by
  obtain ⟨kind, type, span⟩ := e
  simp only [expr, bind_eq_ok, pure_eq_ok] at h
  obtain ⟨_, _, hk, rfl, -⟩ := h
  exact (exprKind_agrees hk).1

end Check
end BorrowLang
