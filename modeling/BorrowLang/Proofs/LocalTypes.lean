import BorrowLang.Proofs.CheckedFunctions
import BorrowLang.Proofs.ExprSteps
import BorrowLang.Proofs.Locals

/-!
In an accepted program the uses of a local, the whole values of `let`s apart, are typed by types that
have a common refinement. What a `let` makes of the local that is its value is not passed on to the
local, so that two `let`s may take one local at types that conflict.
-/
namespace BorrowLang

/-- The types that the uses of the local were given. -/
def Declared.types (d : Declared) : Set Ty := {t | ∃ u ∈ d.uses, u.type = t}

/-- Those that it was given where it is not the whole value of a `let`. -/
def Declared.operandTypes (d : Declared) : Set Ty :=
  {t | ∃ u ∈ d.uses, u.initializes = false ∧ u.type = t}

/-- The local of a check knows at least what the uses met so far were typed with. -/
structure Local.Covers (v : Local) (d : Declared) : Prop where
  name : v.name = d.name
  uses : ∀ u ∈ d.uses, u.initializes = false → u.type ≤ v.type

namespace Local

theorem Covers.bddAbove {v : Local} {d : Declared} (h : v.Covers d) : BddAbove d.operandTypes := by
  refine ⟨v.type, ?_⟩
  rintro t ⟨u, hu, hi, rfl⟩
  exact h.uses u hu hi

theorem Covers.retype {v : Local} {d : Declared} (h : v.Covers d) {t : Ty} (ht : v.type ≤ t)
    {u : Use} (hu : u.initializes = true ∨ u.type = t) :
    Covers { v with type := t } (d.addUse u) := by
  refine ⟨h.name, ?_⟩
  rw [Declared.addUse, List.forall_mem_cons]
  refine ⟨fun hi => ?_, fun w hw hi => (h.uses w hw hi).trans ht⟩
  rcases hu with hu | hu
  · rw [hu] at hi
    contradiction
  · exact hu.le

theorem covers_all_unused (vs : List Local) :
    List.Forall₂ Covers vs (vs.map fun v => .unused v.name) := by
  induction vs with
  | nil => exact .nil
  | cons v vs ih => exact .cons ⟨rfl, List.forall_mem_nil _⟩ ih

end Local

/-- Scope by scope and local by local, down to the `outer` frames that are open where a function
starts, which hold no locals. -/
structure Frames.Cover (outer : Nat) (frames : Frames) (ls : Locals) : Prop where
  inside : outer < frames.length
  opened : List.Forall₂ (List.Forall₂ Local.Covers) (frames.map (·.locals))
    (ls.opened ++ List.replicate outer [])
  closed : ∀ d ∈ ls.closed, BddAbove d.operandTypes

namespace Frames
variable {outer : Nat}

theorem Cover.congr {fs gs : Frames} {ls : Locals} (h : fs.Cover outer ls)
    (hl : fs.map (·.locals) = gs.map (·.locals)) : gs.Cover outer ls := by
  have hlen : fs.length = gs.length := by simpa using congrArg List.length hl
  exact ⟨hlen ▸ h.inside, hl ▸ h.opened, h.closed⟩

theorem Cover.enter {fs : Frames} {ls : Locals} (h : fs.Cover outer ls) :
    Cover outer (.empty :: fs) ls.enter :=
  ⟨Nat.lt_succ_of_lt h.inside, .cons .nil h.opened, h.closed⟩

/-- The innermost frame is one of the function's own. -/
theorem Cover.cases {fs : Frames} {ls : Locals} (h : fs.Cover outer ls) :
    ∃ f rest ds scopes, fs = f :: rest ∧ ls = ⟨ds :: scopes, ls.closed⟩ ∧
      List.Forall₂ Local.Covers f.locals ds ∧
      List.Forall₂ (List.Forall₂ Local.Covers) (rest.map (·.locals))
        (scopes ++ List.replicate outer []) := by
  obtain ⟨opened, closed⟩ := ls
  obtain ⟨hinside, hopened, -⟩ := h
  cases opened with
  | nil =>
    have hlen := hopened.length_eq
    simp only [List.length_map, List.nil_append, List.length_replicate] at hlen
    omega
  | cons ds scopes =>
    cases fs with
    | nil => cases hopened
    | cons f rest =>
      cases hopened with
      | cons hf hrest => exact ⟨f, rest, ds, scopes, rfl, rfl, hf, hrest⟩

theorem bddAbove_of_covers_all {vs : List Local} {ds : List Declared}
    (h : List.Forall₂ Local.Covers vs ds) : ∀ d ∈ ds, BddAbove d.operandTypes := by
  induction h with
  | nil => exact List.forall_mem_nil _
  | cons hv _ ih => exact List.forall_mem_cons.mpr ⟨hv.bddAbove, ih⟩

theorem Cover.closed_leave {fs : Frames} {ls : Locals} (h : fs.Cover outer ls) :
    ∀ d ∈ ls.leave.closed, BddAbove d.operandTypes := by
  obtain ⟨f, rest, ds, scopes, rfl, hls, hf, hrest⟩ := h.cases
  rw [hls]
  exact List.forall_mem_append.mpr ⟨bddAbove_of_covers_all hf, h.closed⟩

theorem Cover.leave {fs : Frames} {ls : Locals} (h : fs.Cover outer ls)
    (hi : outer < fs.tail.length) : Cover outer fs.tail ls.leave := by
  refine ⟨hi, ?_, h.closed_leave⟩
  obtain ⟨f, rest, ds, scopes, rfl, hls, hf, hrest⟩ := h.cases
  rw [hls]
  exact hrest

theorem Cover.declare {fs gs : Frames} {ls : Locals} {ids : List (String × Mutability)}
    (h : fs.Cover outer ls) (hg : fs.Gains ids gs) :
    gs.Cover outer (ls.declare (ids.map (·.1))) := by
  obtain ⟨vs, hv, rfl⟩ := hg
  obtain ⟨f, rest, ds, scopes, rfl, hls, hf, hrest⟩ := h.cases
  have hnames : (ids.map (·.1)).reverse.map Declared.unused =
      vs.map fun v => Declared.unused v.name := by
    rw [← List.map_reverse, ← hv, List.map_map, List.map_map]
    rfl
  rw [hls]
  refine ⟨h.inside, .cons ?_ hrest, h.closed⟩
  rw [hnames]
  exact List.rel_append (Local.covers_all_unused vs) hf

/-- The use goes to the local whose type is looked up and written back. -/
theorem useFirst?_of_find? {name : String} {u : Use} {t : Ty} {v : Local} {vs : List Local}
    {ds : List Declared} (h : List.Forall₂ Local.Covers vs ds)
    (hv : vs.find? (·.name == name) = some v) (ht : v.type ≤ t)
    (hu : u.initializes = true ∨ u.type = t) :
    ∃ ds', Declared.useFirst? name u ds = some ds' ∧
      List.Forall₂ Local.Covers (retypeLocal name t vs) ds' := by
  induction h with
  | nil => simp at hv
  | @cons w d vs ds hw hs ih =>
    rw [List.find?_cons] at hv
    by_cases hn : w.name = name
    · simp only [hn, beq_self_eq_true, Option.some.injEq] at hv
      subst hv
      refine ⟨d.addUse u :: ds, by rw [Declared.useFirst?, if_pos (hw.name.symm.trans hn)], ?_⟩
      rw [retypeLocal, if_pos hn]
      exact .cons (hw.retype ht hu) hs
    · simp only [beq_eq_false_iff_ne.mpr hn] at hv
      obtain ⟨ds', hd, hs'⟩ := ih hv
      have hne : d.name ≠ name := fun he => hn (hw.name.trans he)
      refine ⟨d :: ds', by rw [Declared.useFirst?, if_neg hne, hd]; rfl, ?_⟩
      rw [retypeLocal, if_neg hn]
      exact .cons hw hs'

theorem useFirst?_of_find?_none {name : String} {u : Use} {vs : List Local} {ds : List Declared}
    (h : List.Forall₂ Local.Covers vs ds) (hv : vs.find? (·.name == name) = none) :
    Declared.useFirst? name u ds = none := by
  induction h with
  | nil => rfl
  | @cons w d vs ds hw hs ih =>
    rw [List.find?_cons] at hv
    by_cases hn : w.name = name
    · simp [hn] at hv
    · simp only [beq_eq_false_iff_ne.mpr hn] at hv
      have hne : d.name ≠ name := fun he => hn (hw.name.trans he)
      rw [Declared.useFirst?, if_neg hne, ih hv]
      rfl

theorem useInnermost?_of_local? {name : String} {u : Use} {t : Ty} {v : Local} {fs : Frames}
    {scopes : List (List Declared)}
    (h : List.Forall₂ (List.Forall₂ Local.Covers) (fs.map (·.locals)) scopes)
    (hv : fs.local? name = some v) (ht : v.type ≤ t) (hu : u.initializes = true ∨ u.type = t) :
    ∃ scopes', Declared.useInnermost? name u scopes = some scopes' ∧
      List.Forall₂ (List.Forall₂ Local.Covers) ((fs.retype name t).map (·.locals)) scopes' := by
  induction fs generalizing scopes with
  | nil => simp [local?] at hv
  | cons f fs ih =>
    cases h with
    | @cons _ ds _ scopes hf hfs =>
      rw [local?, List.findSome?_cons] at hv
      cases hfind : f.locals.find? (·.name == name) with
      | none =>
        have hany : f.locals.any (·.name == name) = false := by simpa using hfind
        rw [hfind] at hv
        obtain ⟨scopes', hs, hc⟩ := ih hfs hv
        refine ⟨ds :: scopes', ?_, ?_⟩
        · rw [Declared.useInnermost?, useFirst?_of_find?_none hf hfind, hs]
          rfl
        · simp only [retype, hany, Bool.false_eq_true, if_false]
          exact .cons hf hc
      | some w =>
        have hany : f.locals.any (·.name == name) = true :=
          List.any_eq_true.mpr
            ⟨w, List.mem_of_find?_eq_some hfind, by simpa using List.find?_some hfind⟩
        rw [hfind, Option.some.injEq] at hv
        subst hv
        obtain ⟨ds', hd, hc⟩ := useFirst?_of_find? hf hfind ht hu
        refine ⟨ds' :: scopes, by rw [Declared.useInnermost?, hd], ?_⟩
        simp only [retype, hany, if_true]
        exact .cons hc hfs

/-- Scopes without locals have no part in a use. -/
theorem useInnermost?_append {name : String} {u : Use} {scopes found : List (List Declared)} {n : Nat}
    (h : Declared.useInnermost? name u (scopes ++ List.replicate n []) = some found) :
    ∃ inner, Declared.useInnermost? name u scopes = some inner ∧
      found = inner ++ List.replicate n [] := by
  induction scopes generalizing found with
  | nil =>
    induction n generalizing found with
    | zero => simp [Declared.useInnermost?] at h
    | succ n ih =>
      rw [List.nil_append, List.replicate_succ, Declared.useInnermost?, Declared.useFirst?,
        Option.map_eq_some_iff] at h
      obtain ⟨rest, hr, -⟩ := h
      obtain ⟨_, hnone, -⟩ := ih hr
      simp [Declared.useInnermost?] at hnone
  | cons ds scopes ih =>
    rw [List.cons_append, Declared.useInnermost?] at h
    rw [Declared.useInnermost?]
    cases hd : Declared.useFirst? name u ds with
    | some ds' =>
      rw [hd, Option.some.injEq] at h
      exact ⟨ds' :: scopes, rfl, h.symm⟩
    | none =>
      rw [hd, Option.map_eq_some_iff] at h
      obtain ⟨rest, hr, rfl⟩ := h
      obtain ⟨inner, hs, rfl⟩ := ih hr
      exact ⟨ds :: inner, by rw [hs]; rfl, rfl⟩

theorem Cover.use {fs : Frames} {ls : Locals} {name : String} {u : Use} {t : Ty} {v : Local}
    (h : fs.Cover outer ls) (hv : fs.local? name = some v) (ht : v.type ≤ t)
    (hu : u.initializes = true ∨ u.type = t) :
    ∃ ls', ls.use? name u = some ls' ∧ Cover outer (fs.retype name t) ls' := by
  obtain ⟨_, hs, hc⟩ := useInnermost?_of_local? h.opened hv ht hu
  obtain ⟨inner, hi, rfl⟩ := useInnermost?_append hs
  refine ⟨{ ls with opened := inner }, by rw [Locals.use?, hi]; rfl, ?_, hc, h.closed⟩
  rw [length_retype]
  exact h.inside

/-- Frames that differ in no local. -/
abbrev SameLocals (fs gs : Frames) : Prop := fs.map (·.locals) = gs.map (·.locals)

end Frames

namespace Check

theorem moves_modifyFrame_sameLocals {span : Span} {change : Frame → Frame}
    (h : ∀ f, (change f).locals = f.locals) : (modifyFrame span change).Moves Frames.SameLocals := by
  constructor
  intro frames
  cases frames with
  | nil => rfl
  | cons f fs => exact congrArg (· :: fs.map (·.locals)) (h f).symm

theorem moves_openBlock_sameLocals (env : Env) (span : Span) (traits : List Path)
    (aliases : List (String × Ty)) :
    (openBlock env span traits aliases).Moves Frames.SameLocals := by
  have ha : (declareAliases env span aliases).Moves Frames.SameLocals := by
    induction aliases with
    | nil => exact moves_pure _
    | cons a rest ih =>
      refine (moves_resolveType env span a.2).bind fun t => ?_
      refine Moves.bind (moves_modifyFrame_sameLocals ?_) fun _ => ih
      intro f
      rfl
  exact ha.bind fun _ => moves_modifyFrame_sameLocals fun _ => rfl

section
variable (env : Env) {outer : Nat}

mutual

/-- Following the names through what a check made of an expression keeps pace with the check. -/
theorem expr_covers : ∀ (e : Expr) {expected : Ty} {frames after : Frames} {checked : Expr}
    {ls : Locals}, (expr env e expected).run frames = (.ok checked, after) → frames.Cover outer ls →
    (∃ ls', Locals.expr false checked ls = some ls' ∧ after.Cover outer ls') ∧
      ∀ t, ∃ ls', Locals.expr true { checked with type := t } ls = some ls' ∧ after.Cover outer ls'
  | ⟨kind, _, span⟩, expected, frames, after, checked, ls, h, hc => by
    simp only [expr, bind_eq_ok, pure_eq_ok] at h
    obtain ⟨⟨found, type⟩, _, hk, rfl, rfl⟩ := h
    exact ⟨exprKind_covers span kind hk hc (.inr rfl),
      fun t => exprKind_covers span kind hk hc (.inl rfl)⟩
termination_by structural e => e

theorem exprKind_covers (span : Span) : ∀ (kind : ExprKind) {expected : Ty}
    {frames after : Frames} {found : ExprKind} {type : Ty} {ls : Locals},
    (exprKind env span kind expected).run frames = (.ok (found, type), after) → frames.Cover outer ls →
    ∀ {initializes : Bool} {t : Ty}, initializes = true ∨ type = t →
      ∃ ls', Locals.exprKind ⟨t, initializes⟩ found ls = some ls' ∧ after.Cover outer ls'
  | .block ⟨statements, none, traits, aliases⟩, expected, frames, after, found, type,
      ls, h, hc, i, t, _ => by
    cases exprStep_of_run h with
    | blockUnit ho hs =>
      have hopen := (moves_openBlock_sameLocals env span traits aliases).of_eq ho
      obtain ⟨ls₁, h₁, c₁⟩ := exprs_covers _ hs (hc.enter.congr hopen)
      refine ⟨_, by simp [Locals.exprKind, Locals.optional, h₁], c₁.leave ?_⟩
      rw [List.length_tail, ((moves_exprs env _).of_eq hs).length_eq,
        ((moves_openBlock env span traits aliases).of_eq ho).length_eq]
      exact hc.inside
  | .block ⟨statements, some tail, traits, aliases⟩, expected, frames, after, found, type,
      ls, h, hc, i, t, _ => by
    cases exprStep_of_run h with
    | blockTail ho hs _ ht _ =>
      have hopen := (moves_openBlock_sameLocals env span traits aliases).of_eq ho
      obtain ⟨ls₁, h₁, c₁⟩ := exprs_covers _ hs (hc.enter.congr hopen)
      obtain ⟨ls₂, h₂, c₂⟩ := (expr_covers _ ht c₁).1
      refine ⟨_, by simp [Locals.exprKind, Locals.optional, h₁, h₂], c₂.leave ?_⟩
      rw [List.length_tail, ((moves_expr env _ _).of_eq ht).length_eq,
        ((moves_exprs env _).of_eq hs).length_eq,
        ((moves_openBlock env span traits aliases).of_eq ho).length_eq]
      exact hc.inside
  | .letIn pattern declared value, expected, frames, after, found, type, ls, h, hc, i, t, _ => by
    cases exprStep_of_run h with
    | letIn u _ hv _ hp _ =>
      -- The value is retyped after the local that it may name was written back.
      obtain ⟨ls₁, h₁, c₁⟩ := (expr_covers _ hv hc).2 u
      have hd := c₁.declare (pattern_gains pattern hp)
      exact ⟨_, by simp [Locals.exprKind, Locals.declarePatterns, patternIdentifiers, h₁], hd⟩
  | .assign place value, expected, frames, after, found, type, ls, h, hc, i, t, _ => by
    cases exprStep_of_run h with
    | assign hp hv _ =>
      obtain ⟨ls₁, h₁, c₁⟩ := (expr_covers _ hp hc).1
      obtain ⟨ls₂, h₂, c₂⟩ := (expr_covers _ hv c₁).1
      exact ⟨ls₂, by simp [Locals.exprKind, h₁, h₂], c₂⟩
  | .ret value, expected, frames, after, found, type, ls, h, hc, i, t, _ => by
    cases exprStep_of_run h with
    | ret hv => exact optional_covers _ hv hc
  | .cond condition thenBranch none, expected, frames, after, found, type, ls, h, hc, i, t, _ => by
    cases exprStep_of_run h with
    | condUnit hcond hthen _ =>
      obtain ⟨ls₁, h₁, c₁⟩ := (expr_covers _ hcond hc).1
      obtain ⟨ls₂, h₂, c₂⟩ := (expr_covers _ hthen c₁).1
      exact ⟨ls₂, by simp [Locals.exprKind, Locals.optional, h₁, h₂], c₂⟩
  | .cond condition thenBranch (some elseBranch), expected, frames, after, found, type,
      ls, h, hc, i, t, _ => by
    cases exprStep_of_run h with
    | condElse hcond hthen helse _ _ =>
      obtain ⟨ls₁, h₁, c₁⟩ := (expr_covers _ hcond hc).1
      obtain ⟨ls₂, h₂, c₂⟩ := (expr_covers _ hthen c₁).1
      obtain ⟨ls₃, h₃, c₃⟩ := (expr_covers _ helse c₂).1
      exact ⟨ls₃, by simp [Locals.exprKind, Locals.optional, h₁, h₂, h₃], c₃⟩
  | .matchOn value arms, expected, frames, after, found, type, ls, h, hc, i, t, _ => by
    cases exprStep_of_run h with
    | matchOn hv ha =>
      obtain ⟨ls₁, h₁, c₁⟩ := (expr_covers _ hv hc).1
      obtain ⟨ls₂, h₂, c₂⟩ := matchArms_covers span _ _ ha c₁
      exact ⟨ls₂, by simp [Locals.exprKind, h₁, h₂], c₂⟩
  | .callPath path args, expected, frames, after, found, type, ls, h, hc, i, t, _ => by
    cases exprStep_of_run h with
    | callPath ha _ _ => exact exprs_covers _ ha hc
  | .callMethod receiver method args, expected, frames, after, found, type, ls, h, hc, i, t, _ => by
    cases exprStep_of_run h with
    | callMethod hr ha hm _ =>
      obtain ⟨ls₁, h₁, c₁⟩ := (expr_covers _ hr hc).1
      obtain ⟨ls₂, h₂, c₂⟩ := exprs_covers _ ha c₁
      have hsame := (moves_method (r := Eq) env _ method _ span).of_eq hm
      exact ⟨ls₂, by simp [Locals.exprKind, Locals.expr_derefTimes, h₁, h₂], hsame ▸ c₂⟩
  | .callValue callee args, expected, frames, after, found, type, ls, h, hc, i, t, _ => by
    cases exprStep_of_run h with
    | callValue hcallee ha =>
      obtain ⟨ls₁, h₁, c₁⟩ := (expr_covers _ hcallee hc).1
      obtain ⟨ls₂, h₂, c₂⟩ := exprs_covers _ ha c₁
      exact ⟨ls₂, by simp [Locals.exprKind, h₁, h₂], c₂⟩
  | .named path, expected, frames, after, found, type, ls, h, hc, i, t, ht => by
    cases exprStep_of_run h with
    | localName hp h =>
      obtain ⟨v, hv, hu, rfl⟩ := useLocal_eq_ok.mp h
      obtain ⟨ls', hl, hcover⟩ := hc.use (u := ⟨t, i⟩) hv (Ty.le_of_mergeAt hu).2
        (ht.imp id Eq.symm)
      exact ⟨ls', by simp [Locals.exprKind, hp, hl], hcover⟩
    | itemName hp _ _ => exact ⟨ls, by simp [Locals.exprKind, hp], hc⟩
  | .field object name, expected, frames, after, found, type, ls, h, hc, i, t, _ => by
    cases exprStep_of_run h with
    | fieldLater ho _ =>
      obtain ⟨ls₁, h₁, c₁⟩ := (expr_covers _ ho hc).1
      exact ⟨ls₁, by simp [Locals.exprKind, h₁], c₁⟩
    | field ho _ _ _ =>
      obtain ⟨ls₁, h₁, c₁⟩ := (expr_covers _ ho hc).1
      exact ⟨ls₁, by simp [Locals.exprKind, Locals.expr_derefTimes, h₁], c₁⟩
  | .index value index, expected, frames, after, found, type, ls, h, hc, i, t, _ => by
    cases exprStep_of_run h with
    | index hv hi _ =>
      obtain ⟨ls₁, h₁, c₁⟩ := (expr_covers _ hv hc).1
      obtain ⟨ls₂, h₂, c₂⟩ := (expr_covers _ hi c₁).1
      exact ⟨ls₂, by simp [Locals.exprKind, h₁, h₂], c₂⟩
  | .deref value, expected, frames, after, found, type, ls, h, hc, i, t, _ => by
    cases exprStep_of_run h with
    | deref hv _ _ => exact (expr_covers _ hv hc).1
  | .borrow kind value, expected, frames, after, found, type, ls, h, hc, i, t, _ => by
    cases exprStep_of_run h with
    | borrow _ hv _ => exact (expr_covers _ hv hc).1
  | .cast value target, expected, frames, after, found, type, ls, h, hc, i, t, _ => by
    cases exprStep_of_run h with
    | cast _ hv _ => exact (expr_covers _ hv hc).1
  | .tuple items, expected, frames, after, found, type, ls, h, hc, i, t, _ => by
    cases exprStep_of_run h with
    | tuple hi _ => exact exprs_covers _ hi hc
  | .literal value, expected, frames, after, found, type, ls, h, hc, i, t, _ => by
    cases exprStep_of_run h with
    | literal _ => exact ⟨ls, rfl, hc⟩
  | .binary op left right, expected, frames, after, found, type, ls, h, hc, i, t, _ => by
    cases exprStep_of_run h with
    | binary hl hr _ _ =>
      obtain ⟨ls₁, h₁, c₁⟩ := (expr_covers _ hl hc).1
      obtain ⟨ls₂, h₂, c₂⟩ := (expr_covers _ hr c₁).1
      exact ⟨ls₂, by simp [Locals.exprKind, h₁, h₂], c₂⟩
termination_by structural kind => kind

theorem exprs_covers : ∀ (es : List Expr) {frames after : Frames} {checked : List Expr} {ls : Locals},
    (exprs env es).run frames = (.ok checked, after) → frames.Cover outer ls →
      ∃ ls', Locals.exprs checked ls = some ls' ∧ after.Cover outer ls'
  | [], frames, after, checked, ls, h, hc => by
    simp only [exprs, pure_eq_ok] at h
    obtain ⟨rfl, rfl⟩ := h
    exact ⟨ls, rfl, hc⟩
  | e :: es, frames, after, checked, ls, h, hc => by
    simp only [exprs, bind_eq_ok, pure_eq_ok] at h
    obtain ⟨e, _, he, es, _, hes, rfl, rfl⟩ := h
    obtain ⟨ls₁, h₁, c₁⟩ := (expr_covers _ he hc).1
    obtain ⟨ls₂, h₂, c₂⟩ := exprs_covers _ hes c₁
    exact ⟨ls₂, by simp [Locals.exprs, h₁, h₂], c₂⟩
termination_by structural es => es

theorem optional_covers : ∀ (e : Option Expr) {frames after : Frames} {checked : Option Expr}
    {ls : Locals}, (optional env e).run frames = (.ok checked, after) → frames.Cover outer ls →
      ∃ ls', Locals.optional checked ls = some ls' ∧ after.Cover outer ls'
  | none, frames, after, checked, ls, h, hc => by
    simp only [optional, pure_eq_ok] at h
    obtain ⟨rfl, rfl⟩ := h
    exact ⟨ls, rfl, hc⟩
  | some e, frames, after, checked, ls, h, hc => by
    simp only [optional, bind_eq_ok, pure_eq_ok] at h
    obtain ⟨e, _, he, rfl, rfl⟩ := h
    exact (expr_covers _ he hc).1
termination_by structural e => e

theorem matchArms_covers (span : Span) (scrutinee : Ty) : ∀ (arms : List Arm) {expected : Ty}
    {frames after : Frames} {checked : List Arm} {type : Ty} {ls : Locals},
    (matchArms env span scrutinee arms expected).run frames = (.ok (checked, type), after) →
      frames.Cover outer ls → ∃ ls', Locals.arms checked ls = some ls' ∧ after.Cover outer ls'
  | [], expected, frames, after, checked, type, ls, h, hc => by
    simp only [matchArms, pure_eq_ok, Prod.mk.injEq] at h
    obtain ⟨⟨rfl, rfl⟩, rfl⟩ := h
    exact ⟨ls, rfl, hc⟩
  | ⟨patterns, guard, code⟩ :: rest, expected, frames, after, checked, type, ls, h, hc => by
    obtain ⟨_, arms, t, _, rfl, ⟨hp, hg, _, hcode, _⟩, hr⟩ := armStep_of_run h
    obtain ⟨ls₁, h₁, c₁⟩ := optional_covers _ hg (hc.enter.declare (eachPattern_gains hp))
    obtain ⟨ls₂, h₂, c₂⟩ := (expr_covers _ hcode c₁).1
    have hlen := ((moves_expr env _ _).of_eq hcode).length_eq.trans
      (((moves_optional env _).of_eq hg).length_eq.trans ((moves_eachPattern _ _ _).of_eq hp).length_eq)
    have hleave := c₂.leave (by rw [List.length_tail, hlen]; exact hc.inside)
    obtain ⟨ls₃, h₃, c₃⟩ := matchArms_covers span scrutinee rest hr hleave
    exact ⟨ls₃, by simp [Locals.arms, Locals.declarePatterns, h₁, h₂, h₃], c₃⟩
termination_by structural arms => arms

end

theorem functionArgs_gains {span : Span} {args checked : List FunctionArg} {frames after : Frames}
    (h : (functionArgs env span args).run frames = (.ok checked, after)) :
    frames.Gains (patternIdentifiers (checked.map (·.pattern))) after := by
  induction args generalizing frames checked with
  | nil =>
    simp only [functionArgs, pure_eq_ok] at h
    obtain ⟨rfl, rfl⟩ := h
    exact .nil frames
  | cons a args ih =>
    obtain ⟨p, type⟩ := a
    simp only [functionArgs, bind_eq_ok, resolveType_eq_ok, pure_eq_ok] at h
    obtain ⟨type, _, ⟨-, rfl⟩, _, mid, hp, rest, _, hr, rfl, rfl⟩ := h
    exact (pattern_gains p hp).append (ih hr)

/-- A function starts with one scope, and none of those outside it holds a local. -/
theorem cover_start {frames : Frames} (h : frames.BetweenItems) (typeParams : List String) :
    Frames.Cover frames.length ({ Frame.empty with typeParams } :: frames)
      (Locals.enter ⟨[], []⟩) := by
  refine ⟨Nat.lt_succ_self _, .cons .nil ?_, List.forall_mem_nil _⟩
  have hnone : frames.map (·.locals) = List.replicate frames.length [] :=
    List.map_eq_replicate_iff.mpr fun f hf => (h f hf).1
  rw [hnone]
  refine List.forall₂_iff_get.mpr ⟨by simp, ?_⟩
  intro i hi hi'
  simp

theorem function_locals {d checked : Function} (h : d.CheckedTo env checked) :
    ∃ ds, checked.locals? = some ds ∧ ∀ x ∈ ds, BddAbove x.operandTypes := by
  obtain ⟨frames, after, hout, h⟩ := h
  obtain ⟨ret, mid, -, ha, -, hbody⟩ := function_eq_ok env h
  have hargs := (cover_start hout _).declare (functionArgs_gains env ha)
  obtain ⟨-, hnone⟩ | ⟨body, code, last, -, hcode, he⟩ := hbody
  · exact ⟨_, by simp [Function.locals?, hnone, Locals.optional, Locals.declarePatterns],
      hargs.closed_leave⟩
  · obtain ⟨ls, hl, hcover⟩ := (expr_covers env _ he hargs).1
    exact ⟨_, by simp [Function.locals?, hcode, Locals.optional, Locals.declarePatterns, hl],
      hcover.closed_leave⟩

end
end Check

/-- In source form, `fn split() -> u8 { let x = 1; let y: u8 = x; let z: bool = x; x }`. -/
def Function.split : Function :=
  let raw (kind : ExprKind) : Expr := ⟨kind, .wildcard, default⟩
  let bind (name : String) (type : Ty) (value : ExprKind) :=
    raw (.letIn (.identifier name .immutable default) type (raw value))
  let statements := [bind "x" .wildcard (.literal (.int 1 none)),
    bind "y" (.primitive .u8) (.named (.bare "x")), bind "z" (.primitive .bool) (.named (.bare "x"))]
  { name := "split"
    params := ⟨[], []⟩
    args := []
    ret := .primitive .u8
    code := some (raw (.block ⟨statements, some (raw (.named (.bare "x"))), [], []⟩))
    span := default }

/-- Every bare name of an accepted body stands for a local, and what a local is typed with, where it
is not the whole value of a `let`, has a common refinement. -/
theorem Program.check_operandTypes_bddAbove (p : Program) (options : CheckOptions) {root : Module}
    (h : p.check options = .ok root) :
    ∀ f ∈ root.functions options.implMethods,
      ∃ ds, f.locals? = some ds ∧ ∀ d ∈ ds, BddAbove d.operandTypes := by
  intro f hf
  have hfs := p.check_functions h
  obtain ⟨i, hi, rfl⟩ := List.getElem_of_mem hf
  have hi' : i < (p.root.functions options.implMethods).length := by rwa [hfs.length_eq]
  exact Check.function_locals _ (hfs.get hi' hi)

theorem Program.check_operandTypes_bddAbove_split : ∃ root,
    (Program.mk ⟨"", [], [.function .split]⟩ .empty).check .standard = .ok root ∧
      ∀ f ∈ root.functions true, ∃ ds, f.locals? = some ds ∧ ∀ d ∈ ds, BddAbove d.operandTypes :=
  ⟨_, rfl, Program.check_operandTypes_bddAbove ⟨⟨"", [], [.function .split]⟩, .empty⟩ .standard rfl⟩

/-- Two `let`s take the one local at types that nothing refines at once. -/
theorem Function.split_types_not_bddAbove : ∃ root,
    (Program.mk ⟨"", [], [.function .split]⟩ .empty).check .standard = .ok root ∧
      ∃ f ∈ root.functions true, ∃ ds, f.locals? = some ds ∧ ∃ d ∈ ds, ¬ BddAbove d.types := by
  refine ⟨_, rfl, _, .head _, _, rfl, _, .tail _ (.tail _ (.head _)), ?_⟩
  rintro ⟨t, ht⟩
  have hbool : Ty.primitive .bool ≤ t := ht ⟨_, .tail _ (.head _), rfl⟩
  have hu8 : Ty.primitive .u8 ≤ t := ht ⟨_, .head _, rfl⟩
  cases hbool
  cases hu8

end BorrowLang
