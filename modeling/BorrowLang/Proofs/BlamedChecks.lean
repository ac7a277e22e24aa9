import BorrowLang.Proofs.BlamelessLookups
import BorrowLang.Proofs.Nodes
import BorrowLang.Proofs.SeparateChecks

/-!
A check reports a violated invariant only for a path that is used as a value or as a callee and names
something that is neither.
-/
namespace BorrowLang

/-- An expression whose path the checker has no answer for, with what it then says. -/
inductive ExprKind.Blamed : ExprKind → String → Prop
  | value {path : Path} (key : Key) : path.soleName? = none →
    path.binding ∈ [.enumType key, .traitItem key, .typeAlias key] →
      Blamed (.named path) s!"path `{path}` bound to {path.binding} used as a value"
  | nothing {path : Path} : path.absolute = false → path.segments = [] → path.binding = .unbound →
      Blamed (.named path) s!"path `{path}` bound to {path.binding} used as a value"
  | callee {path : Path} (key : Key) (args : List Expr) :
    path.binding ∈ [.staticItem key, .enumType key, .traitItem key, .typeAlias key] →
      Blamed (.callPath path args) s!"path `{path}` bound to {path.binding} used as a callee"

namespace Symbols
variable {s : Symbols} {path : Path} (hk : path.binding.Known s) {span there : Span}
  {message : String}
include hk
open Result

theorem valueType_violation
    (h : s.valueType path span = .error (.invariantViolation message there)) : there = span ∧
      message = s!"path `{path}` bound to {path.binding} used as a value" ∧
      (path.binding = .unbound ∨
        ∃ key, path.binding ∈ [.enumType key, .traitItem key, .typeAlias key]) := by
  unfold valueType at h
  split at h
  · next key _ => exact absurd h (Table.blameless_find _ key span message there)
  · next enumKey index hb =>
    refine absurd h ((s.blameless_variant span (hb ▸ hk)).bind (fun (d, v) => ?_) message there)
    dsimp only
    split
    · exact (d.blameless_args span path).bind fun _ => blameless_pure
    · nofun
  · next key _ =>
    refine absurd h ((Table.blameless_find _ key span).bind (fun d => ?_) message there)
    dsimp only
    split_ifs <;> nofun
  · cases h
  · next hstatic hvariant hstruct hfunction =>
    cases h
    refine ⟨rfl, rfl, ?_⟩
    cases hb : path.binding with
    | unbound => exact .inl rfl
    | enumType key | traitItem key | typeAlias key => exact .inr ⟨key, by simp⟩
    | staticItem key => exact absurd hb (hstatic key)
    | variant enumKey index => exact absurd hb (hvariant enumKey index)
    | structType key => exact absurd hb (hstruct key)
    | function key => exact absurd hb (hfunction key)

theorem callType_violation {found : List Ty}
    (h : s.callType path found span = .error (.invariantViolation message there)) : there = span ∧
      message = s!"path `{path}` bound to {path.binding} used as a callee" ∧
      (path.binding = .unbound ∨
        ∃ key, path.binding ∈ [.staticItem key, .enumType key, .traitItem key, .typeAlias key]) := by
  unfold callType at h
  split at h
  · next key _ =>
    refine absurd h ((Table.blameless_find _ key span).bind (fun f => ?_) message there)
    dsimp only
    split
    · nofun
    · split <;> nofun
  · next enumKey index hb =>
    exact absurd h (s.blameless_variantType span (hb ▸ hk) path found message there)
  · cases h
  · next hfunction hvariant hstruct =>
    cases h
    refine ⟨rfl, rfl, ?_⟩
    cases hb : path.binding with
    | unbound => exact .inl rfl
    | staticItem key | enumType key | traitItem key | typeAlias key => exact .inr ⟨key, by simp⟩
    | function key => exact absurd hb (hfunction key)
    | variant enumKey index => exact absurd hb (hvariant enumKey index)
    | structType key => exact absurd hb (hstruct key)

end Symbols

namespace Check
variable {α β : Type} {Q : String → Span → Prop} {c : Check α}

/-- Where a frame is open, as many stay open, and a violated invariant is reported for a reason. -/
structure Blames (Q : String → Span → Prop) (c : Check α) : Prop where
  run : ∀ frames : Frames, frames ≠ [] → (c.run frames).2.length = frames.length ∧
    ∀ message span, (c.run frames).1 = .error (.invariantViolation message span) → Q message span

theorem blames_ofResult {x : Result α}
    (h : ∀ message span, x = .error (.invariantViolation message span) → Q message span) :
    (ofResult x).Blames Q := ⟨fun _ _ => ⟨rfl, h⟩⟩

theorem blames_of_blameless {x : Result α} (h : x.Blameless) : (ofResult x).Blames Q :=
  blames_ofResult fun message span he => absurd he (h message span)

theorem blames_pure (a : α) : Blames Q (pure a) := blames_of_blameless Result.blameless_pure

theorem blames_get : Blames Q (get : Check Frames) := ⟨fun _ _ => ⟨rfl, nofun⟩⟩

theorem Blames.bind {f : α → Check β} (h : c.Blames Q) (hf : ∀ a, (f a).Blames Q) :
    (c >>= f).Blames Q := by
  constructor
  intro frames hframes
  have hc := h.run frames hframes
  rw [run_bind]
  rcases hrun : c.run frames with ⟨e | a, after⟩
  · rw [hrun] at hc
    refine ⟨hc.1, fun message span he => hc.2 message span ?_⟩
    cases he
    rfl
  · rw [hrun] at hc
    have hafter : after ≠ [] := fun h => by
      rw [h] at hc
      exact hframes (List.length_eq_zero_iff.mp hc.1.symm)
    have hrest := (hf a).run after hafter
    exact ⟨hrest.1.trans hc.1, hrest.2⟩

theorem Blames.inFrame (h : c.Blames Q) : (inFrame c).Blames Q := by
  constructor
  intro frames _
  have hc := h.run (.empty :: frames) nofun
  refine ⟨?_, hc.2⟩
  rw [run_inFrame, List.length_tail, hc.1]
  rfl

theorem Blames.reason (h : c.Blames Q) {frames : Frames} {message : String} {span : Span}
    (he : ((Check.inFrame c).run frames).1 = .error (.invariantViolation message span)) :
    Q message span := (h.run (.empty :: frames) nofun).2 message span he

theorem blames_modifyFrame (span : Span) (change : Frame → Frame) :
    (modifyFrame span change).Blames Q := by
  constructor
  intro frames hframes
  cases frames with
  | nil => contradiction
  | cons f fs => exact ⟨rfl, nofun⟩

theorem blames_merge (t u : Ty) (span : Span) : (merge t u span).Blames Q :=
  blames_of_blameless (t.blameless_mergeAt u span)

theorem resolveType_blames (env : Env) (span : Span) (t : Ty) : (resolveType env span t).Blames Q :=
  ⟨fun frames _ => ⟨rfl, fun message there he =>
    absurd he (blameless_resolveType env frames span t message there)⟩⟩

theorem blames_useLocal (name : String) (expected : Ty) (span : Span) :
    (useLocal name expected span).Blames Q := by
  constructor
  intro frames _
  simp only [run, useLocal]
  cases frames.local? name with
  | none =>
    refine ⟨rfl, fun message there he => ?_⟩
    cases he
  | some v =>
    have hmerge := expected.blameless_mergeAt v.type span
    dsimp only
    cases hm : expected.mergeAt v.type span with
    | error e =>
      refine ⟨rfl, fun message there he => ?_⟩
      cases he
      exact absurd hm (hmerge message there)
    | ok t =>
      refine ⟨frames.length_retype name t, fun message there he => ?_⟩
      cases he

theorem blames_method (env : Env) (t : Ty) (method : Segment) (given : Nat) (span : Span) :
    (Check.method env t method given span).Blames Q := by
  constructor
  intro frames _
  have hfound : ((Check.method env t method given span).run frames).1.Blameless := by
    refine (Ty.blameless_resolveArgs (frames.blameless_typeParam span) t).bind fun u => ?_
    refine Result.Blameless.bind ?_ fun c =>
      (c.blameless_checkArity method given span).bind fun _ => Result.blameless_pure
    exact env.symbols.blameless_searchMethod _ _ (by nofun) (by nofun) _ 0
  exact ⟨rfl, fun message there he => absurd he (hfound message there)⟩

/-! ### Patterns -/

section Patterns
variable {s : Symbols}

mutual

theorem blames_pattern : ∀ (p : Pattern) (t : Ty), (∀ a ∈ p.phrases, a.Known s) →
    (pattern s p t).Blames Q
  | .wildcard _, _, _ => blames_pure _
  | .identifier _ _ span, _, _ => blames_modifyFrame span _
  | .literal value span, t, _ => by
    rw [pattern]
    exact blames_of_blameless ((t.blameless_mergeAt _ span).bind fun _ => Result.blameless_pure)
  | .tuple items span, t, hp => by
    rw [pattern]
    exact (blames_of_blameless (t.blameless_tupleParts _ span)).bind fun ts =>
      blames_patterns items ts hp
  | .reference inner span, t, hp => by
    rw [pattern]
    exact (blames_of_blameless (t.blameless_referencePart span)).bind fun u =>
      blames_pattern inner u hp
  | .variant path items span, t, hp => by
    rw [pattern]
    obtain ⟨hpath, hitems⟩ := List.forall_mem_cons.mp hp
    have hb := (List.forall_mem_cons.mp hpath).1
    exact (blames_of_blameless (s.blameless_variantParts span hb _ t)).bind fun ts =>
      blames_patterns items ts hitems
  | .fields path fields span, t, hp => by
    rw [pattern]
    exact (blames_of_blameless (s.blameless_namedParts span path t)).bind fun parts =>
      blames_fieldPatterns path span parts fields (List.forall_mem_cons.mp hp).2

theorem blames_patterns : ∀ (ps : List Pattern) (ts : List Ty),
    (∀ a ∈ patternPhrases ps, a.Known s) → (patterns s ps ts).Blames Q
  | [], _, _ => blames_pure _
  | _ :: _, [], _ => blames_pure _
  | p :: ps, t :: ts, hps => by
    obtain ⟨hp, hps⟩ := List.forall_mem_append.mp hps
    exact (blames_pattern p t hp).bind fun _ => blames_patterns ps ts hps

theorem blames_fieldPatterns (path : Path) (span : Span) (parts : List (String × Ty)) :
    ∀ fields : List (String × Pattern), (∀ a ∈ fieldPatternPhrases fields, a.Known s) →
      (fieldPatterns s path span parts fields).Blames Q
  | [], _ => blames_pure _
  | (name, p) :: rest, hf => by
    obtain ⟨hp, hrest⟩ := List.forall_mem_append.mp hf
    rw [fieldPatterns]
    cases parts.lookup name with
    | none => exact (blames_of_blameless (by nofun)).bind fun _ =>
        blames_fieldPatterns path span parts rest hrest
    | some t => exact (blames_pattern p t hp).bind fun _ =>
        blames_fieldPatterns path span parts rest hrest

end

theorem blames_eachPattern {ps : List Pattern} (hps : ∀ a ∈ patternPhrases ps, a.Known s) (t : Ty) :
    (eachPattern s ps t).Blames Q := by
  induction ps with
  | nil => exact blames_pure _
  | cons p ps ih =>
    obtain ⟨hp, hps⟩ := List.forall_mem_append.mp hps
    exact (blames_pattern p t hp).bind fun _ => ih hps

end Patterns

/-! ### Expressions -/

theorem blames_openBlock (env : Env) (span : Span) (traits : List Path)
    (aliases : List (String × Ty)) : (openBlock env span traits aliases).Blames Q := by
  have haliases : (declareAliases env span aliases).Blames Q := by
    induction aliases with
    | nil => exact blames_pure _
    | cons a rest ih =>
      exact (resolveType_blames env span a.2).bind fun t => (blames_modifyFrame span _).bind fun _ => ih
  exact haliases.bind fun _ => blames_modifyFrame span _

/-- What is known from outside is merged with what was found. -/
theorem blames_merge_pair (t u : Ty) (span : Span) (a : α) :
    Blames Q (do return (a, ← merge t u span)) := (blames_merge t u span).bind fun _ => blames_pure _

end Check

/-- All that the phrase names is bound, to what is there. -/
structure Phrase.Resolved (s : Symbols) (a : Phrase) : Prop where
  known : a.Known s
  settled : a.Settled s

/-- Whatever the expression itself is blamed for is a reason. -/
def Expr.Justifies (Q : String → Span → Prop) (e : Expr) : Prop :=
  ∀ message, e.kind.Blamed message → Q message e.span

theorem Path.segments_eq_nil (p : Path) (h : p.absolute = false) (hl : p.segments.length ≤ 1)
    (hn : p.soleName? = none) : p.segments = [] := by
  obtain ⟨absolute, segments, binding⟩ := p
  dsimp only at h hl
  subst h
  match segments, hl with
  | [], _ => rfl
  | [_], _ => cases hn

theorem Path.blamed_named {s : Symbols} {path : Path} (h : (Phrase.value path).Resolved s)
    (hn : path.soleName? = none) {span there : Span} {message : String}
    (hv : s.valueType path span = .error (.invariantViolation message there)) :
    there = span ∧ (ExprKind.named path).Blamed message := by
  have hk : path.binding.Known s := h.known path (.head _)
  obtain ⟨hspan, rfl, hunbound | ⟨key, hkey⟩⟩ := Symbols.valueType_violation hk hv
  · refine ⟨hspan, ?_⟩
    -- A path that names an item is bound, so this one is left as it was, without a name.
    rcases h.settled with ⟨hrelative, hlength⟩ | hdenotes
    · exact .nothing hrelative (path.segments_eq_nil hrelative hlength hn) hunbound
    · have hspelled := hdenotes.1.spelled
      rw [hunbound] at hspelled
      exact hspelled.elim
  · exact ⟨hspan, .value key hn hkey⟩

theorem Path.blamed_callPath {s : Symbols} {path : Path} (h : (Phrase.item path).Resolved s)
    {found : List Ty} {span there : Span} {message : String}
    (hc : s.callType path found span = .error (.invariantViolation message there))
    (args : List Expr) : there = span ∧ (ExprKind.callPath path args).Blamed message := by
  have hk : path.binding.Known s := h.known path (.head _)
  obtain ⟨hspan, rfl, hunbound | ⟨key, hkey⟩⟩ := Symbols.callType_violation hk hc
  · have hspelled := h.settled.1.spelled
    rw [hunbound] at hspelled
    exact hspelled.elim
  · exact ⟨hspan, .callee key args hkey⟩

namespace Check
variable {env : Env} {Q : String → Span → Prop}

mutual

theorem blames_expr : ∀ (e : Expr) (expected : Ty), (∀ a ∈ e.phrases, a.Resolved env.symbols) →
    (∀ x ∈ e.nodes, x.Justifies Q) → (expr env e expected).Blames Q
  | ⟨kind, _, span⟩, expected, hp, hq => by
    rw [expr]
    obtain ⟨hown, hinside⟩ := List.forall_mem_cons.mp hq
    exact (blames_exprKind span kind expected (List.forall_mem_cons.mp hp).2 hown hinside).bind
      fun _ => blames_pure _

/-- Only the path of the expression itself can be what it is blamed for. -/
theorem blames_exprKind (span : Span) : ∀ (kind : ExprKind) (expected : Ty),
    (∀ a ∈ kind.phrases, a.Resolved env.symbols) → (∀ message, kind.Blamed message → Q message span) →
      (∀ x ∈ kind.nodes, x.Justifies Q) → (exprKind env span kind expected).Blames Q
  | .block ⟨statements, tail, traits, aliases⟩, expected, hp, _, hq => by
    rw [exprKind]
    obtain ⟨hopen, htail⟩ := List.forall_mem_append.mp hp
    obtain ⟨hqs, hqt⟩ := List.forall_mem_append.mp hq
    refine .inFrame ((blames_openBlock env span traits aliases).bind fun _ => ?_)
    refine (blames_exprs statements (List.forall_mem_append.mp hopen).2 hqs).bind fun _ => ?_
    cases tail with
    | none => exact blames_pure _
    | some tail =>
      refine (blames_merge ..).bind fun t => (blames_expr tail t htail hqt).bind fun _ => ?_
      exact blames_merge_pair ..
  | .letIn pattern declared value, expected, hp, _, hq => by
    rw [exprKind]
    obtain ⟨hpattern, hvalue⟩ := List.forall_mem_append.mp (List.forall_mem_cons.mp hp).2
    refine (resolveType_blames env span declared).bind fun t => ?_
    refine (blames_expr value _ hvalue hq).bind fun value => ?_
    refine (blames_of_blameless (value.blameless_letType t span)).bind fun u => ?_
    refine (blames_pattern pattern u fun a ha => (hpattern a ha).known).bind fun _ => ?_
    exact blames_merge_pair ..
  | .assign place value, expected, hp, _, hq => by
    rw [exprKind]
    obtain ⟨hplace, hvalue⟩ := List.forall_mem_append.mp hp
    obtain ⟨hqp, hqv⟩ := List.forall_mem_append.mp hq
    refine (blames_expr place _ hplace hqp).bind fun _ => ?_
    exact (blames_expr value _ hvalue hqv).bind fun _ => blames_merge_pair ..
  | .ret value, expected, hp, _, hq => by
    rw [exprKind]
    exact (blames_optional value hp hq).bind fun _ => blames_pure _
  | .cond condition thenBranch elseBranch, expected, hp, _, hq => by
    rw [exprKind]
    obtain ⟨hbranches, helse⟩ := List.forall_mem_append.mp hp
    obtain ⟨hcond, hthen⟩ := List.forall_mem_append.mp hbranches
    obtain ⟨hqb, hqe⟩ := List.forall_mem_append.mp hq
    obtain ⟨hqc, hqt⟩ := List.forall_mem_append.mp hqb
    refine (blames_expr condition _ hcond hqc).bind fun _ => ?_
    refine (blames_expr thenBranch _ hthen hqt).bind fun _ => ?_
    cases elseBranch with
    | none => exact blames_merge_pair ..
    | some elseBranch =>
      refine (blames_expr elseBranch _ helse hqe).bind fun _ => (blames_merge ..).bind fun _ => ?_
      exact blames_merge_pair ..
  | .matchOn value arms, expected, hp, _, hq => by
    rw [exprKind]
    obtain ⟨hvalue, harms⟩ := List.forall_mem_append.mp hp
    obtain ⟨hqv, hqa⟩ := List.forall_mem_append.mp hq
    refine (blames_expr value _ hvalue hqv).bind fun e => ?_
    exact (blames_matchArms span e.type arms expected harms hqa).bind fun _ => blames_pure _
  | .callPath path args, expected, hp, hown, hq => by
    rw [exprKind]
    obtain ⟨hpath, hargs⟩ := List.forall_mem_cons.mp hp
    refine (blames_exprs args hargs hq).bind fun es => .bind (blames_ofResult ?_) fun _ => ?_
    · intro message there h
      obtain ⟨rfl, hblamed⟩ := Path.blamed_callPath hpath h args
      exact hown message hblamed
    · exact blames_merge_pair ..
  | .callMethod receiver ⟨name, types⟩ args, expected, hp, _, hq => by
    rw [exprKind]
    obtain ⟨hreceiver, hargs⟩ := List.forall_mem_append.mp hp
    have hreceiver := (List.forall_mem_append.mp hreceiver).2
    obtain ⟨hqr, hqa⟩ := List.forall_mem_append.mp hq
    refine (blames_expr receiver _ hreceiver hqr).bind fun _ => ?_
    refine (blames_exprs args hargs hqa).bind fun _ => (blames_method ..).bind fun _ => ?_
    exact blames_merge_pair ..
  | .callValue callee args, expected, hp, _, hq => by
    rw [exprKind]
    obtain ⟨hcallee, hargs⟩ := List.forall_mem_append.mp hp
    obtain ⟨hqc, hqa⟩ := List.forall_mem_append.mp hq
    refine (blames_expr callee _ hcallee hqc).bind fun _ => ?_
    exact (blames_exprs args hargs hqa).bind fun _ => blames_pure _
  | .named path, expected, hp, hown, _ => by
    rw [exprKind]
    cases hn : path.soleName? with
    | some name => exact (blames_useLocal name expected span).bind fun _ => blames_pure _
    | none =>
      refine .bind (blames_ofResult ?_) fun _ => blames_merge_pair ..
      intro message there h
      obtain ⟨rfl, hblamed⟩ := Path.blamed_named (hp _ (.head _)) hn h
      exact hown message hblamed
  | .field object name, expected, hp, _, hq => by
    rw [exprKind]
    refine (blames_expr object _ hp hq).bind fun e => ?_
    split
    · exact blames_pure _
    · refine (blames_of_blameless (env.symbols.blameless_memberType span e.type name)).bind fun _ => ?_
      exact (blames_merge ..).bind fun _ => blames_pure _
  | .index value index, expected, hp, _, hq => by
    rw [exprKind]
    obtain ⟨hvalue, hindex⟩ := List.forall_mem_append.mp hp
    obtain ⟨hqv, hqi⟩ := List.forall_mem_append.mp hq
    refine (blames_expr value _ hvalue hqv).bind fun _ => ?_
    exact (blames_expr index _ hindex hqi).bind fun _ => blames_merge_pair ..
  | .deref value, expected, hp, _, hq => by
    rw [exprKind]
    refine (blames_expr value _ hp hq).bind fun e => ?_
    exact (blames_of_blameless e.blameless_pointee).bind fun _ => blames_merge_pair ..
  | .borrow kind value, expected, hp, _, hq => by
    rw [exprKind]
    refine (blames_merge ..).bind fun t => (blames_expr value t hp hq).bind fun _ => ?_
    exact blames_merge_pair ..
  | .cast value target, expected, hp, _, hq => by
    rw [exprKind]
    refine (resolveType_blames env span target).bind fun _ => ?_
    refine (blames_expr value _ (List.forall_mem_cons.mp hp).2 hq).bind fun _ => ?_
    exact blames_merge_pair ..
  | .tuple items, expected, hp, _, hq => by
    rw [exprKind]
    exact (blames_exprs items hp hq).bind fun _ => blames_merge_pair ..
  | .literal value, expected, _, _, _ => by
    rw [exprKind]
    exact blames_merge_pair ..
  | .binary op left right, expected, hp, _, hq => by
    rw [exprKind]
    obtain ⟨hleft, hright⟩ := List.forall_mem_append.mp hp
    obtain ⟨hql, hqr⟩ := List.forall_mem_append.mp hq
    refine (blames_expr left _ hleft hql).bind fun l => (blames_expr right _ hright hqr).bind fun r => ?_
    exact (blames_of_blameless (op.blameless_type l.type r.type span)).bind fun _ =>
      blames_merge_pair ..

theorem blames_exprs : ∀ es : List Expr, (∀ a ∈ exprPhrases es, a.Resolved env.symbols) →
    (∀ x ∈ exprNodes es, x.Justifies Q) → (exprs env es).Blames Q
  | [], _, _ => blames_pure _
  | e :: es, hp, hq => by
    obtain ⟨hfirst, hrest⟩ := List.forall_mem_append.mp hp
    obtain ⟨hqf, hqr⟩ := List.forall_mem_append.mp hq
    exact (blames_expr e _ hfirst hqf).bind fun _ =>
      (blames_exprs es hrest hqr).bind fun _ => blames_pure _

theorem blames_optional : ∀ e : Option Expr, (∀ a ∈ optionPhrases e, a.Resolved env.symbols) →
    (∀ x ∈ optionNodes e, x.Justifies Q) → (optional env e).Blames Q
  | none, _, _ => blames_pure _
  | some e, hp, hq => (blames_expr e _ hp hq).bind fun _ => blames_pure _

theorem blames_matchArms (span : Span) (scrutinee : Ty) : ∀ (arms : List Arm) (expected : Ty),
    (∀ a ∈ armPhrases arms, a.Resolved env.symbols) → (∀ x ∈ armNodes arms, x.Justifies Q) →
      (matchArms env span scrutinee arms expected).Blames Q
  | [], _, _, _ => blames_pure _
  | ⟨patterns, guard, code⟩ :: rest, expected, hp, hq => by
    rw [matchArms]
    obtain ⟨harm, hrest⟩ := List.forall_mem_append.mp hp
    obtain ⟨harm, hcode⟩ := List.forall_mem_append.mp harm
    obtain ⟨hpatterns, hguard⟩ := List.forall_mem_append.mp harm
    obtain ⟨hqa, hqr⟩ := List.forall_mem_append.mp hq
    obtain ⟨hqg, hqc⟩ := List.forall_mem_append.mp hqa
    refine .bind (.inFrame ?_) fun r =>
      (blames_matchArms span scrutinee rest r.2 hrest hqr).bind fun _ => blames_pure _
    refine (blames_eachPattern (fun a ha => (hpatterns a ha).known) scrutinee).bind fun _ => ?_
    refine (blames_optional guard hguard hqg).bind fun _ => (blames_merge ..).bind fun t => ?_
    exact (blames_expr code t hcode hqc).bind fun _ => blames_merge_pair ..

end

theorem blames_declareParams (params : Params) (span : Span) :
    (declareParams params span).Blames Q := by
  have hbounds (bounds : List Bound) : (requireTypeParams bounds).Blames Q := by
    induction bounds with
    | nil => exact blames_pure _
    | cons b rest ih =>
      rw [requireTypeParams]
      cases boundName? b with
      | none => exact ih
      | some found =>
        refine blames_get.bind fun frames => .bind (blames_of_blameless ?_) fun _ => ih
        exact (frames.blameless_typeParam found.2 found.1).bind fun _ => Result.blameless_pure
  exact (blames_modifyFrame span _).bind fun _ => hbounds params.bounds

theorem blames_functionArgs (span : Span) (args : List FunctionArg)
    (ha : ∀ a ∈ args.flatMap FunctionArg.phrases, a.Resolved env.symbols) :
    (functionArgs env span args).Blames Q := by
  induction args with
  | nil => exact blames_pure _
  | cons arg rest ih =>
    obtain ⟨hfirst, hrest⟩ := List.forall_mem_append.mp ha
    have hpattern := (List.forall_mem_cons.mp hfirst).2
    refine (resolveType_blames env span arg.type).bind fun t => ?_
    refine (blames_pattern arg.pattern t fun a ha => (hpattern a ha).known).bind fun _ => ?_
    exact (ih hrest).bind fun _ => blames_pure _

/-- A function is blamed for an expression of its body. -/
theorem function_violation {d : Function} (hd : ∀ a ∈ d.phrases, a.Resolved env.symbols)
    {frames : Frames} {message : String} {span : Span}
    (he : ((function env d).run frames).1 = .error (.invariantViolation message span)) :
    ∃ code ∈ d.code, ∃ x ∈ code.nodes, x.span = span ∧ x.kind.Blamed message := by
  obtain ⟨hargs, hret⟩ := List.forall_mem_append.mp hd
  have hcode := (List.forall_mem_cons.mp hret).2
  refine Blames.reason (Q := fun message span => ∃ code ∈ d.code, ∃ x ∈ code.nodes,
    x.span = span ∧ x.kind.Blamed message) ?_ he
  refine (blames_declareParams d.params d.span).bind fun _ => ?_
  refine (resolveType_blames env d.span d.ret).bind fun ret => ?_
  refine (blames_functionArgs d.span d.args (List.forall_mem_append.mp hargs).2).bind fun _ => ?_
  cases hc : d.code with
  | none => exact blames_pure _
  | some code =>
    rw [hc] at hcode
    refine (blames_expr code ret hcode fun x hx message hx' => ?_).bind fun _ => blames_pure _
    exact ⟨code, rfl, x, hx, rfl, hx'⟩

end Check
end BorrowLang
