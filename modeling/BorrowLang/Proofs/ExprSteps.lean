import BorrowLang.Proofs.Runs

/-!
The rules by which a check goes through an expression. A run that succeeds has checked the parts in
order, each from the frames that the one before left, and merged what they give with what is expected
of the whole.
-/
namespace BorrowLang
namespace Check
variable (env : Env) (span : Span)

/-- An expression checked in these frames with `expected` for what is known of its type: what is left of
it, its type and the frames afterwards. -/
inductive ExprStep (expected : Ty) (frames : Frames) : ExprKind → ExprKind → Ty → Frames → Prop
  | blockUnit {statements statements' : List Expr} {traits : List Path} {aliases : List (String × Ty)}
    {opened last : Frames} :
    (openBlock env span traits aliases).run (.empty :: frames) = (.ok (), opened) →
    (exprs env statements).run opened = (.ok statements', last) →
    ExprStep expected frames (.block ⟨statements, none, traits, aliases⟩)
      (.block ⟨statements', none, traits, aliases⟩)
      (if expected.isWildcard then .unit else expected) last.tail
  | blockTail {statements statements' : List Expr} {tail tail' : Expr} {traits : List Path}
    {aliases : List (String × Ty)} {inside t : Ty} {opened mid last : Frames} :
    (openBlock env span traits aliases).run (.empty :: frames) = (.ok (), opened) →
    (exprs env statements).run opened = (.ok statements', mid) →
    tail.type.mergeAt expected tail.span = .ok inside →
    (expr env tail inside).run mid = (.ok tail', last) →
    expected.mergeAt tail'.type tail'.span = .ok t →
    ExprStep expected frames (.block ⟨statements, some tail, traits, aliases⟩)
      (.block ⟨statements', some tail', traits, aliases⟩) t last.tail
  | letIn {pattern : Pattern} {declared declared' t : Ty} (type : Ty) {value value' : Expr}
    {mid last : Frames} : BorrowLang.resolveType env frames span declared = .ok declared' →
    (expr env value value.type).run frames = (.ok value', mid) →
    value'.letType declared' span = .ok type →
    (Check.pattern env.symbols pattern type).run mid = (.ok (), last) →
    expected.mergeAt .unit span = .ok t →
    ExprStep expected frames (.letIn pattern declared value)
      (.letIn pattern type { value' with type }) t last
  | assign {place place' value value' : Expr} {t : Ty} {mid last : Frames} :
    (expr env place place.type).run frames = (.ok place', mid) →
    (expr env value value.type).run mid = (.ok value', last) →
    expected.mergeAt .unit span = .ok t →
    ExprStep expected frames (.assign place value) (.assign place' value') t last
  | ret {value value' : Option Expr} {last : Frames} :
    (optional env value).run frames = (.ok value', last) →
    ExprStep expected frames (.ret value) (.ret value') expected last
  | condUnit {condition condition' thenBranch thenBranch' : Expr} {t : Ty} {mid last : Frames} :
    (expr env condition condition.type).run frames = (.ok condition', mid) →
    (expr env thenBranch thenBranch.type).run mid = (.ok thenBranch', last) →
    expected.mergeAt .unit span = .ok t →
    ExprStep expected frames (.cond condition thenBranch none) (.cond condition' thenBranch' none) t
      last
  | condElse {condition condition' thenBranch thenBranch' elseBranch elseBranch' : Expr} {u t : Ty}
    {mid mid' last : Frames} :
    (expr env condition condition.type).run frames = (.ok condition', mid) →
    (expr env thenBranch thenBranch.type).run mid = (.ok thenBranch', mid') →
    (expr env elseBranch elseBranch.type).run mid' = (.ok elseBranch', last) →
    expected.mergeAt thenBranch'.type span = .ok u → u.mergeAt elseBranch'.type span = .ok t →
    ExprStep expected frames (.cond condition thenBranch (some elseBranch))
      (.cond condition' thenBranch' (some elseBranch')) t last
  | matchOn {value value' : Expr} {arms arms' : List Arm} {t : Ty} {mid last : Frames} :
    (expr env value value.type).run frames = (.ok value', mid) →
    (matchArms env span value'.type arms expected).run mid = (.ok (arms', t), last) →
    ExprStep expected frames (.matchOn value arms) (.matchOn value' arms') t last
  | callPath {path : Path} {args args' : List Expr} {u t : Ty} {last : Frames} :
    (exprs env args).run frames = (.ok args', last) →
    env.symbols.callType path (args'.map (·.type)) span = .ok u →
    expected.mergeAt u span = .ok t →
    ExprStep expected frames (.callPath path args) (.callPath path args') t last
  | callMethod {receiver receiver' : Expr} {method : Segment} {args args' : List Expr} {c : Candidate}
    {t : Ty} {mid mid' last : Frames} :
    (expr env receiver receiver.type).run frames = (.ok receiver', mid) →
    (exprs env args).run mid = (.ok args', mid') →
    (Check.method env receiver'.type method args'.length span).run mid' = (.ok c, last) →
    expected.mergeAt c.ret span = .ok t →
    ExprStep expected frames (.callMethod receiver method args)
      (.callMethod (receiver'.derefTimes c.derefs) method args') t last
  | callValue {callee callee' : Expr} {args args' : List Expr} {mid last : Frames} :
    (expr env callee callee.type).run frames = (.ok callee', mid) →
    (exprs env args).run mid = (.ok args', last) →
    ExprStep expected frames (.callValue callee args) (.callValue callee' args') expected last
  | localName {path : Path} {name : String} {t : Ty} {last : Frames} : path.soleName? = some name →
    (useLocal name expected span).run frames = (.ok t, last) →
    ExprStep expected frames (.named path) (.named path) t last
  | itemName {path : Path} {u t : Ty} : path.soleName? = none →
    env.symbols.valueType path span = .ok u → expected.mergeAt u span = .ok t →
    ExprStep expected frames (.named path) (.named path) t frames
  | fieldLater {object object' : Expr} {name : String} {last : Frames} :
    (expr env object object.type).run frames = (.ok object', last) → ¬ object'.type.isConcrete →
    ExprStep expected frames (.field object name) (.field object' name) expected last
  | field {object object' : Expr} {name : String} {u t : Ty} {last : Frames} :
    (expr env object object.type).run frames = (.ok object', last) → object'.type.isConcrete →
    env.symbols.memberType object'.type name span = .ok u → expected.mergeAt u span = .ok t →
    ExprStep expected frames (.field object name)
      (.field (object'.derefTimes object'.type.layers) name) t last
  | index {value value' index index' : Expr} {t : Ty} {mid last : Frames} :
    (expr env value value.type).run frames = (.ok value', mid) →
    (expr env index index.type).run mid = (.ok index', last) →
    expected.mergeAt value'.type.element span = .ok t →
    ExprStep expected frames (.index value index) (.index value' index') t last
  | deref {value value' : Expr} {u t : Ty} {last : Frames} :
    (expr env value value.type).run frames = (.ok value', last) → value'.pointee = .ok u →
    expected.mergeAt u span = .ok t →
    ExprStep expected frames (.deref value) (.deref value') t last
  | borrow {kind : BorrowKind} {value value' : Expr} {inside t : Ty} {last : Frames} :
    value.type.mergeAt (expected.pointee?.getD .wildcard) span = .ok inside →
    (expr env value inside).run frames = (.ok value', last) →
    expected.mergeAt (.borrow kind value'.type) span = .ok t →
    ExprStep expected frames (.borrow kind value) (.borrow kind value') t last
  | cast {value value' : Expr} {target target' t : Ty} {last : Frames} :
    BorrowLang.resolveType env frames span target = .ok target' →
    (expr env value value.type).run frames = (.ok value', last) →
    expected.mergeAt target' span = .ok t →
    ExprStep expected frames (.cast value target) (.cast value' target') t last
  | tuple {items items' : List Expr} {t : Ty} {last : Frames} :
    (exprs env items).run frames = (.ok items', last) →
    expected.mergeAt (Expr.tupleType items') span = .ok t →
    ExprStep expected frames (.tuple items) (.tuple items') t last
  | literal {value : Literal} {t : Ty} : expected.mergeAt value.type span = .ok t →
    ExprStep expected frames (.literal value) (.literal value) t frames
  | binary {op : BinaryOp} {left left' right right' : Expr} {u t : Ty} {mid last : Frames} :
    (expr env left left.type).run frames = (.ok left', mid) →
    (expr env right right.type).run mid = (.ok right', last) →
    op.type left'.type right'.type span = .ok u → expected.mergeAt u span = .ok t →
    ExprStep expected frames (.binary op left right) (.binary op left' right') t last

/-- An arm of a match on a value of type `scrutinee`, and what is known afterwards of the type of all. -/
inductive ArmStep (scrutinee expected : Ty) (frames : Frames) : Arm → Arm → Ty → Frames → Prop
  | mk {patterns : List Pattern} {guard guard' : Option Expr} {code code' : Expr} {inside t : Ty}
    {opened mid last : Frames} :
    (eachPattern env.symbols patterns scrutinee).run (.empty :: frames) = (.ok (), opened) →
    (optional env guard).run opened = (.ok guard', mid) →
    code.type.mergeAt expected span = .ok inside →
    (expr env code inside).run mid = (.ok code', last) →
    expected.mergeAt code'.type code'.span = .ok t →
    ArmStep scrutinee expected frames ⟨patterns, guard, code⟩ ⟨patterns, guard', code'⟩ t last.tail

variable {env span} {expected type : Ty} {frames after : Frames}

theorem exprStep_of_run {kind found : ExprKind}
    (h : (exprKind env span kind expected).run frames = (.ok (found, type), after)) :
    ExprStep env span expected frames kind found type after := by
  cases kind with
  | block body =>
    obtain ⟨statements, tail, traits, aliases⟩ := body
    rw [exprKind] at h
    simp only [inFrame_eq_ok, bind_eq_ok] at h
    obtain ⟨_, ⟨_, opened, ho, statements, mid, hs, h⟩, rfl⟩ := h
    cases tail with
    | none =>
      simp only [pure_eq_ok, Prod.mk.injEq] at h
      obtain ⟨⟨rfl, rfl⟩, rfl⟩ := h
      exact .blockUnit ho hs
    | some tail =>
      simp only [bind_eq_ok, merge_eq_ok, pure_eq_ok, Prod.mk.injEq] at h
      obtain ⟨inside, _, ⟨hi, rfl⟩, tail, _, ht, t, _, ⟨hm, rfl⟩, ⟨rfl, rfl⟩, rfl⟩ := h
      exact .blockTail ho hs hi ht hm
  | letIn pattern declared value =>
    simp only [exprKind, bind_eq_ok, resolveType_eq_ok, ofResult_eq_ok, merge_eq_ok, pure_eq_ok,
      Prod.mk.injEq] at h
    obtain ⟨declared, _, ⟨hd, rfl⟩, value, mid, hv, u, _, ⟨hu, rfl⟩, _, _, hp, t, _, ⟨hm, rfl⟩,
      ⟨rfl, rfl⟩, rfl⟩ := h
    exact .letIn u hd hv hu hp hm
  | assign place value =>
    simp only [exprKind, bind_eq_ok, merge_eq_ok, pure_eq_ok, Prod.mk.injEq] at h
    obtain ⟨place, mid, hp, value, _, hv, t, _, ⟨hm, rfl⟩, ⟨rfl, rfl⟩, rfl⟩ := h
    exact .assign hp hv hm
  | ret value =>
    simp only [exprKind, bind_eq_ok, pure_eq_ok, Prod.mk.injEq] at h
    obtain ⟨value, _, hv, ⟨rfl, rfl⟩, rfl⟩ := h
    exact .ret hv
  | cond condition thenBranch elseBranch =>
    rw [exprKind] at h
    simp only [bind_eq_ok] at h
    obtain ⟨condition, mid, hc, thenBranch, mid', ht, h⟩ := h
    cases elseBranch with
    | none =>
      simp only [bind_eq_ok, merge_eq_ok, pure_eq_ok, Prod.mk.injEq] at h
      obtain ⟨t, _, ⟨hm, rfl⟩, ⟨rfl, rfl⟩, rfl⟩ := h
      exact .condUnit hc ht hm
    | some elseBranch =>
      simp only [bind_eq_ok, merge_eq_ok, pure_eq_ok, Prod.mk.injEq] at h
      obtain ⟨elseBranch, _, he, u, _, ⟨hu, rfl⟩, t, _, ⟨hm, rfl⟩, ⟨rfl, rfl⟩, rfl⟩ := h
      exact .condElse hc ht he hu hm
  | matchOn value arms =>
    simp only [exprKind, bind_eq_ok, pure_eq_ok, Prod.mk.injEq] at h
    obtain ⟨value, mid, hv, ⟨arms, t⟩, _, ha, ⟨rfl, rfl⟩, rfl⟩ := h
    exact .matchOn hv ha
  | callPath path args =>
    simp only [exprKind, bind_eq_ok, ofResult_eq_ok, merge_eq_ok, pure_eq_ok, Prod.mk.injEq] at h
    obtain ⟨args, _, ha, u, _, ⟨hu, rfl⟩, t, _, ⟨hm, rfl⟩, ⟨rfl, rfl⟩, rfl⟩ := h
    exact .callPath ha hu hm
  | callMethod receiver method args =>
    simp only [exprKind, bind_eq_ok, merge_eq_ok, pure_eq_ok, Prod.mk.injEq] at h
    obtain ⟨receiver, mid, hr, args, mid', ha, c, _, hc, t, _, ⟨hm, rfl⟩, ⟨rfl, rfl⟩, rfl⟩ := h
    exact .callMethod hr ha hc hm
  | callValue callee args =>
    simp only [exprKind, bind_eq_ok, pure_eq_ok, Prod.mk.injEq] at h
    obtain ⟨callee, mid, hc, args, _, ha, ⟨rfl, rfl⟩, rfl⟩ := h
    exact .callValue hc ha
  | named path =>
    rw [exprKind] at h
    cases hp : path.soleName? with
    | some name =>
      simp only [hp, bind_eq_ok, pure_eq_ok, Prod.mk.injEq] at h
      obtain ⟨t, _, hu, ⟨rfl, rfl⟩, rfl⟩ := h
      exact .localName hp hu
    | none =>
      simp only [hp, bind_eq_ok, ofResult_eq_ok, merge_eq_ok, pure_eq_ok, Prod.mk.injEq] at h
      obtain ⟨u, _, ⟨hu, rfl⟩, t, _, ⟨hm, rfl⟩, ⟨rfl, rfl⟩, rfl⟩ := h
      exact .itemName hp hu hm
  | field object name =>
    simp only [exprKind, bind_eq_ok] at h
    obtain ⟨object, mid, ho, h⟩ := h
    split_ifs at h with hknown
    · simp only [pure_eq_ok, Prod.mk.injEq] at h
      obtain ⟨⟨rfl, rfl⟩, rfl⟩ := h
      exact .fieldLater ho (by simpa using hknown)
    · simp only [bind_eq_ok, ofResult_eq_ok, merge_eq_ok, pure_eq_ok, Prod.mk.injEq] at h
      obtain ⟨u, _, ⟨hu, rfl⟩, t, _, ⟨hm, rfl⟩, ⟨rfl, rfl⟩, rfl⟩ := h
      exact .field ho (by simpa using hknown) hu hm
  | index value index =>
    simp only [exprKind, bind_eq_ok, merge_eq_ok, pure_eq_ok, Prod.mk.injEq] at h
    obtain ⟨value, mid, hv, index, _, hi, t, _, ⟨hm, rfl⟩, ⟨rfl, rfl⟩, rfl⟩ := h
    exact .index hv hi hm
  | deref value =>
    simp only [exprKind, bind_eq_ok, ofResult_eq_ok, merge_eq_ok, pure_eq_ok, Prod.mk.injEq] at h
    obtain ⟨value, _, hv, u, _, ⟨hu, rfl⟩, t, _, ⟨hm, rfl⟩, ⟨rfl, rfl⟩, rfl⟩ := h
    exact .deref hv hu hm
  | borrow kind value =>
    simp only [exprKind, bind_eq_ok, merge_eq_ok, pure_eq_ok, Prod.mk.injEq] at h
    obtain ⟨inside, _, ⟨hi, rfl⟩, value, _, hv, t, _, ⟨hm, rfl⟩, ⟨rfl, rfl⟩, rfl⟩ := h
    exact .borrow hi hv hm
  | cast value target =>
    simp only [exprKind, bind_eq_ok, resolveType_eq_ok, merge_eq_ok, pure_eq_ok, Prod.mk.injEq] at h
    obtain ⟨target, _, ⟨ht, rfl⟩, value, _, hv, t, _, ⟨hm, rfl⟩, ⟨rfl, rfl⟩, rfl⟩ := h
    exact .cast ht hv hm
  | tuple items =>
    simp only [exprKind, bind_eq_ok, merge_eq_ok, pure_eq_ok, Prod.mk.injEq] at h
    obtain ⟨items, _, hi, t, _, ⟨hm, rfl⟩, ⟨rfl, rfl⟩, rfl⟩ := h
    exact .tuple hi hm
  | literal value =>
    simp only [exprKind, bind_eq_ok, merge_eq_ok, pure_eq_ok, Prod.mk.injEq] at h
    obtain ⟨t, _, ⟨hm, rfl⟩, ⟨rfl, rfl⟩, rfl⟩ := h
    exact .literal hm
  | binary op left right =>
    simp only [exprKind, bind_eq_ok, ofResult_eq_ok, merge_eq_ok, pure_eq_ok, Prod.mk.injEq] at h
    obtain ⟨left, mid, hl, right, _, hr, u, _, ⟨hu, rfl⟩, t, _, ⟨hm, rfl⟩, ⟨rfl, rfl⟩, rfl⟩ := h
    exact .binary hl hr hu hm

/-- The arms one after another, each with what is known of the type after those before it. -/
theorem armStep_of_run {scrutinee : Ty} {arm : Arm} {rest checked : List Arm}
    (h : (matchArms env span scrutinee (arm :: rest) expected).run frames =
      (.ok (checked, type), after)) :
    ∃ arm' rest' t mid, checked = arm' :: rest' ∧
      ArmStep env span scrutinee expected frames arm arm' t mid ∧
      (matchArms env span scrutinee rest t).run mid = (.ok (rest', type), after) := by
  obtain ⟨patterns, guard, code⟩ := arm
  simp only [matchArms, bind_eq_ok, inFrame_eq_ok, merge_eq_ok, pure_eq_ok, Prod.mk.injEq] at h
  obtain ⟨⟨arm, t⟩, mid, ⟨last, ⟨_, opened, hp, guard, _, hg, inside, _, ⟨hi, rfl⟩, code, _, hc, _, _,
    ⟨hm, rfl⟩, ⟨rfl, rfl⟩, rfl⟩, rfl⟩, ⟨arms, _⟩, _, hr, ⟨rfl, rfl⟩, rfl⟩ := h
  exact ⟨_, arms, t, _, rfl, .mk hp hg hi hc hm, hr⟩

end Check
end BorrowLang
