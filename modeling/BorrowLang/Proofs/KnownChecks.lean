import BorrowLang.Proofs.KnownFrames

/-! Where names are bound to items that are there, no check of them fails for want of an item. -/
namespace BorrowLang

section
variable {env : Env} {frames : Frames}
open Result Ty

mutual

theorem finds_resolveType (h : env.symbols.Closed) (hf : frames.Known env.symbols) (span : Span) :
    ∀ {t : Ty}, t.Known env.symbols → (resolveType env frames span t).Finds (Ty.Known env.symbols)
  | .path ⟨absolute, segments, binding⟩, ht => by
    obtain ⟨hb, hs⟩ := allBindings_path.mp ht
    refine (finds_resolveSegments h hf span hs).bind fun found hfound => ?_
    have hpath : (Ty.path ⟨absolute, found, binding⟩).Known env.symbols :=
      allBindings_path.mpr ⟨hb, hfound⟩
    dsimp only
    split
    · exact Aliases.finds_expand h.targets span hpath
    · split
      · exact finds_pure hpath
      · split
        · next ha => exact finds_pure (hf.alias? ha)
        · exact finds_throw id
  | .borrow _ inner, ht =>
    (finds_resolveType h hf span (t := inner) ht).bind fun _ hu =>
      finds_pure (allBindings_borrow.mpr hu)
  | .array inner _, ht =>
    (finds_resolveType h hf span (t := inner) ht).bind fun _ hu =>
      finds_pure (allBindings_array.mpr hu)
  | .tuple _, ht =>
    (finds_resolveTypes h hf span (allBindings_tuple.mp ht)).bind fun _ hus =>
      finds_pure (allBindings_tuple.mpr hus)
  | .wildcard, ht | .unit, ht | .primitive _, ht | .generic _, ht => finds_pure ht

theorem finds_resolveTypes (h : env.symbols.Closed) (hf : frames.Known env.symbols) (span : Span) :
    ∀ {ts : List Ty}, (∀ t ∈ ts, t.Known env.symbols) →
      (resolveTypes env frames span ts).Finds fun us => ∀ u ∈ us, u.Known env.symbols
  | [], ht => finds_pure ht
  | _ :: _, ht =>
    have ht := List.forall_mem_cons.mp ht
    (finds_resolveType h hf span ht.1).bind fun _ hu => (finds_resolveTypes h hf span ht.2).bind
      fun _ hus => finds_pure (List.forall_mem_cons.mpr ⟨hu, hus⟩)

theorem finds_resolveSegments (h : env.symbols.Closed) (hf : frames.Known env.symbols)
    (span : Span) : ∀ {segments : List Segment},
      SegmentsBindings (Binding.Known env.symbols) segments →
        (resolveSegments env frames span segments).Finds
          (SegmentsBindings (Binding.Known env.symbols))
  | [], hs => finds_pure hs
  | ⟨_, _⟩ :: _, hs =>
    have hs := segmentsBindings_cons.mp hs
    (finds_resolveTypes h hf span hs.1).bind fun _ hargs =>
      (finds_resolveSegments h hf span hs.2).bind fun _ hrest =>
        finds_pure (segmentsBindings_cons.mpr ⟨hargs, hrest⟩)

end

end

theorem Frames.finds_typeParam {P : Binding → Prop} (frames : Frames) (span : Span)
    (name : String) : (frames.typeParam span name).Finds (Ty.AllBindings P) := by
  unfold typeParam
  split_ifs
  · exact Ty.allBindings_wildcard
  · exact id

theorem Path.known_of_all {s : Symbols} {p : Path} (h : ∀ q ∈ p :: p.argPaths, q.binding.Known s) :
    (Ty.path p).Known s := by
  rw [Ty.Known, Ty.AllBindings, Ty.paths_path]
  exact h

theorem Literal.type_known {s : Symbols} {value : Literal} (h : ∀ a ∈ value.phrases, a.Known s) :
    value.type.Known s := by
  cases value with
  | int n suffix | float n suffix =>
    cases suffix with
    | none => exact Ty.allBindings_wildcard
    | some t => exact h (.suffix t) (.head _)
  | bool _ | char _ | string _ => exact List.forall_mem_nil _

namespace Check

section Patterns
variable {s : Symbols}

mutual

theorem finds_pattern (h : s.Closed) : ∀ (p : Pattern) {t : Ty}, (∀ a ∈ p.phrases, a.Known s) →
    t.Known s → (pattern s p t).Finds s fun _ => True
  | .wildcard _, _, _, _ => finds_pure trivial
  | .identifier _ _ span, _, _, ht => finds_declare ht span
  | .literal value span, t, hp, ht => by
    rw [pattern]
    have hmerged := Ty.finds_mergeAt ht (Literal.type_known hp) span
    exact finds_ofResult (hmerged.bind fun _ _ => trivial)
  | .tuple items span, t, hp, ht => by
    rw [pattern]
    exact (finds_ofResult (Ty.finds_tupleParts ht _ span)).bind fun ts hts =>
      finds_patterns h items hp hts
  | .reference inner span, t, hp, ht => by
    rw [pattern]
    exact (finds_ofResult (Ty.finds_referencePart ht span)).bind fun u hu =>
      finds_pattern h inner hp hu
  | .variant path items span, t, hp, ht => by
    rw [pattern]
    obtain ⟨hpath, hitems⟩ := List.forall_mem_cons.mp hp
    have hb := (List.forall_mem_cons.mp hpath).1
    exact (finds_ofResult (h.finds_variantParts hb ht _ span)).bind fun ts hts =>
      finds_patterns h items hitems hts
  | .fields path fields span, t, hp, ht => by
    rw [pattern]
    obtain ⟨hpath, hfields⟩ := List.forall_mem_cons.mp hp
    have hb := (List.forall_mem_cons.mp hpath).1
    exact (finds_ofResult (h.finds_namedParts hb ht span)).bind fun parts hparts =>
      finds_fieldPatterns h path span hparts fields hfields

theorem finds_patterns (h : s.Closed) : ∀ (ps : List Pattern) {ts : List Ty},
    (∀ a ∈ patternPhrases ps, a.Known s) → (∀ t ∈ ts, t.Known s) →
      (patterns s ps ts).Finds s fun _ => True
  | [], _, _, _ => finds_pure trivial
  | _ :: _, [], _, _ => finds_pure trivial
  | p :: ps, t :: ts, hps, hts => by
    obtain ⟨hp, hps⟩ := List.forall_mem_append.mp hps
    obtain ⟨ht, hts⟩ := List.forall_mem_cons.mp hts
    exact (finds_pattern h p hp ht).bind fun _ _ => finds_patterns h ps hps hts

theorem finds_fieldPatterns (h : s.Closed) (path : Path) (span : Span) {parts : List (String × Ty)}
    (hparts : ∀ part ∈ parts, part.2.Known s) : ∀ (fields : List (String × Pattern)),
      (∀ a ∈ fieldPatternPhrases fields, a.Known s) →
        (fieldPatterns s path span parts fields).Finds s fun _ => True
  | [], _ => finds_pure trivial
  | (name, p) :: rest, hf => by
    obtain ⟨hp, hrest⟩ := List.forall_mem_append.mp hf
    rw [fieldPatterns]
    cases hl : parts.lookup name with
    | none => exact (finds_throw (Q := fun _ => True) id).bind fun _ _ =>
        finds_fieldPatterns h path span hparts rest hrest
    | some t =>
      have ht : t.Known s := hparts _ (mem_of_lookup_eq_some hl)
      exact (finds_pattern h p hp ht).bind fun _ _ =>
        finds_fieldPatterns h path span hparts rest hrest

end

theorem finds_eachPattern (h : s.Closed) {ps : List Pattern}
    (hps : ∀ a ∈ patternPhrases ps, a.Known s) {t : Ty} (ht : t.Known s) :
    (eachPattern s ps t).Finds s fun _ => True := by
  induction ps with
  | nil => exact finds_pure trivial
  | cons p ps ih =>
    obtain ⟨hp, hps⟩ := List.forall_mem_append.mp hps
    exact (finds_pattern h p hp ht).bind fun _ _ => ih hps

end Patterns

section
variable {env : Env} {α : Type}

theorem resolveType_finds (h : env.symbols.Closed) (span : Span) {t : Ty}
    (ht : t.Known env.symbols) : (resolveType env span t).Finds env.symbols (Ty.Known env.symbols) :=
  ⟨fun _ hk => ⟨finds_resolveType h hk span ht, hk⟩⟩

theorem finds_method (h : env.symbols.Closed) {t : Ty} (ht : t.Known env.symbols) (method : Segment)
    (given : Nat) (span : Span) :
    (Check.method env t method given span).Finds env.symbols (Candidate.Known env.symbols) := by
  constructor
  intro frames hk
  refine ⟨?_, hk⟩
  refine (Ty.finds_resolveArgs (frames.finds_typeParam span) ht).bind fun u hu => ?_
  have hchain : ∀ v ∈ u.derefChain.take (env.options.derefLimit + 1), v.Known env.symbols :=
    fun v hv => hu.derefChain v (List.mem_of_mem_take hv)
  refine Result.Finds.bind (h.finds_searchMethod id id hchain 0) fun c hc => ?_
  exact (c.finds_checkArity method given span).bind fun _ _ => hc

theorem finds_declareAliases (h : env.symbols.Closed) (span : Span) {aliases : List (String × Ty)}
    (ha : ∀ a ∈ aliases, a.2.Known env.symbols) :
    (declareAliases env span aliases).Finds env.symbols fun _ => True := by
  induction aliases with
  | nil => exact finds_pure trivial
  | cons a rest ih =>
    obtain ⟨hfirst, hrest⟩ := List.forall_mem_cons.mp ha
    refine (resolveType_finds h span hfirst).bind fun t ht => ?_
    refine Finds.bind (finds_modifyFrame fun f hf => ?_) fun _ _ => ih hrest
    exact ⟨hf.locals, List.forall_mem_cons.mpr ⟨ht, hf.aliases⟩⟩

theorem finds_openBlock (h : env.symbols.Closed) (span : Span) (traits : List Path)
    {aliases : List (String × Ty)} (ha : ∀ a ∈ aliases, a.2.Known env.symbols) :
    (openBlock env span traits aliases).Finds env.symbols fun _ => True :=
  (finds_declareAliases h span ha).bind fun _ _ =>
    finds_modifyFrame fun _ hf => ⟨hf.locals, hf.aliases⟩

/-- The type an expression was given names only what is there. -/
def TypeKnown (env : Env) (e : Expr) : Prop := e.type.Known env.symbols

theorem typeKnown_of_phrases {e : Expr} (he : ∀ a ∈ e.phrases, a.Known env.symbols) :
    TypeKnown env e := by
  obtain ⟨kind, type, span⟩ := e
  exact he (.annotated type) (.head _)

/-- What is known from outside is merged with what was found. -/
theorem finds_merge_pair {t u : Ty} (ht : t.Known env.symbols) (hu : u.Known env.symbols)
    (span : Span) (a : α) : Finds env.symbols (fun r : α × Ty => r.2.Known env.symbols)
      (do return (a, ← merge t u span)) :=
  (finds_merge ht hu span).bind fun _ hm => finds_pure hm

theorem pointee_finds {e : Expr} (he : TypeKnown env e) :
    e.pointee.Finds (Ty.Known env.symbols) := by
  unfold Expr.pointee
  split
  · next hk =>
    rw [TypeKnown, hk] at he
    exact he
  · exact Ty.allBindings_wildcard
  · exact id

theorem letType_finds {value : Expr} (hv : TypeKnown env value) {declared : Ty}
    (hd : declared.Known env.symbols) (span : Span) :
    (value.letType declared span).Finds (Ty.Known env.symbols) := by
  unfold Expr.letType
  split_ifs
  · exact id
  · exact Ty.finds_mergeAt hd hv span

theorem tupleType_known {items : List Expr} (hi : ∀ e ∈ items, TypeKnown env e) :
    (Expr.tupleType items).Known env.symbols := by
  unfold Expr.tupleType
  split_ifs
  · exact Ty.allBindings_unit
  · exact Ty.allBindings_tuple.mpr (List.forall_mem_map.mpr hi)

theorem binaryType_finds {left right : Ty} (hl : left.Known env.symbols)
    (hr : right.Known env.symbols) (op : BinaryOp) (span : Span) :
    (op.type left right span).Finds (Ty.Known env.symbols) := by
  refine (Ty.finds_mergeAt hl hr span).bind fun t ht => ?_
  split_ifs
  · exact Ty.allBindings_primitive .bool
  · exact ht

mutual

theorem finds_expr (h : env.symbols.Closed) : ∀ (e : Expr) {expected : Ty},
    (∀ a ∈ e.phrases, a.Known env.symbols) → expected.Known env.symbols →
      (expr env e expected).Finds env.symbols (TypeKnown env)
  | ⟨kind, _, span⟩, expected, he, ht => by
    rw [expr]
    exact (finds_exprKind h span kind (List.forall_mem_cons.mp he).2 ht).bind fun (_, _) hr =>
      finds_pure hr

/-- The parts are checked with types that name only what is there, and so is what is merged. -/
theorem finds_exprKind (h : env.symbols.Closed) (span : Span) : ∀ (kind : ExprKind) {expected : Ty},
    (∀ a ∈ kind.phrases, a.Known env.symbols) → expected.Known env.symbols →
      (exprKind env span kind expected).Finds env.symbols fun r => r.2.Known env.symbols
  | .block ⟨statements, tail, traits, aliases⟩, expected, hk, ht => by
    rw [exprKind]
    obtain ⟨hopen, htail⟩ := List.forall_mem_append.mp hk
    obtain ⟨hopen, hstatements⟩ := List.forall_mem_append.mp hopen
    have haliases := List.forall_mem_map.mp (List.forall_mem_append.mp hopen).2
    refine .inFrame ((finds_openBlock h span traits haliases).bind fun _ _ => ?_)
    refine (finds_exprs h statements hstatements).bind fun _ _ => ?_
    cases tail with
    | none =>
      refine finds_pure ?_
      dsimp only
      split_ifs
      · exact Ty.allBindings_unit
      · exact ht
    | some tail =>
      refine (finds_merge (typeKnown_of_phrases htail) ht tail.span).bind fun t hm => ?_
      refine (finds_expr h tail htail hm).bind fun e he => ?_
      exact finds_merge_pair ht he e.span _
  | .letIn pattern declared value, expected, hk, ht => by
    rw [exprKind]
    obtain ⟨hdeclared, hrest⟩ := List.forall_mem_cons.mp hk
    obtain ⟨hpattern, hvalue⟩ := List.forall_mem_append.mp hrest
    refine (resolveType_finds h span hdeclared).bind fun declared hd => ?_
    refine (finds_expr h value hvalue (typeKnown_of_phrases hvalue)).bind fun value hv => ?_
    refine (finds_ofResult (letType_finds hv hd span)).bind fun t hlet => ?_
    refine (finds_pattern h pattern hpattern hlet).bind fun _ _ => ?_
    exact finds_merge_pair ht Ty.allBindings_unit span _
  | .assign place value, expected, hk, ht => by
    rw [exprKind]
    obtain ⟨hplace, hvalue⟩ := List.forall_mem_append.mp hk
    refine (finds_expr h place hplace (typeKnown_of_phrases hplace)).bind fun _ _ => ?_
    refine (finds_expr h value hvalue (typeKnown_of_phrases hvalue)).bind fun _ _ => ?_
    exact finds_merge_pair ht Ty.allBindings_unit span _
  | .ret value, expected, hk, ht => by
    rw [exprKind]
    exact (finds_optional h value hk).bind fun _ _ => finds_pure ht
  | .cond condition thenBranch elseBranch, expected, hk, ht => by
    rw [exprKind]
    obtain ⟨hbranches, helse⟩ := List.forall_mem_append.mp hk
    obtain ⟨hcond, hthen⟩ := List.forall_mem_append.mp hbranches
    refine (finds_expr h condition hcond (typeKnown_of_phrases hcond)).bind fun _ _ => ?_
    refine (finds_expr h thenBranch hthen (typeKnown_of_phrases hthen)).bind fun e he => ?_
    cases elseBranch with
    | none => exact finds_merge_pair ht Ty.allBindings_unit span _
    | some elseBranch =>
      refine (finds_expr h elseBranch helse (typeKnown_of_phrases helse)).bind fun e' he' => ?_
      refine (finds_merge ht he span).bind fun t hm => ?_
      exact finds_merge_pair hm he' span _
  | .matchOn value arms, expected, hk, ht => by
    rw [exprKind]
    obtain ⟨hvalue, harms⟩ := List.forall_mem_append.mp hk
    refine (finds_expr h value hvalue (typeKnown_of_phrases hvalue)).bind fun e he => ?_
    exact (finds_matchArms h span he arms harms ht).bind fun (_, _) hr => finds_pure hr
  | .callPath path args, expected, hk, ht => by
    rw [exprKind]
    obtain ⟨hpath, hargs⟩ := List.forall_mem_cons.mp hk
    have hp : (Ty.path path).Known env.symbols := Path.known_of_all hpath
    refine (finds_exprs h args hargs).bind fun es hes => ?_
    have htypes : ∀ t ∈ es.map (·.type), t.Known env.symbols := List.forall_mem_map.mpr hes
    refine (finds_ofResult (h.finds_callType hp span htypes)).bind fun t hcall => ?_
    exact finds_merge_pair ht hcall span _
  | .callMethod receiver ⟨name, types⟩ args, expected, hk, ht => by
    rw [exprKind]
    obtain ⟨hreceiver, hargs⟩ := List.forall_mem_append.mp hk
    have hreceiver := (List.forall_mem_append.mp hreceiver).2
    refine (finds_expr h receiver hreceiver (typeKnown_of_phrases hreceiver)).bind fun e he => ?_
    refine (finds_exprs h args hargs).bind fun es _ => ?_
    refine (finds_method h he _ _ span).bind fun c hc => ?_
    exact finds_merge_pair ht hc.ret span _
  | .callValue callee args, expected, hk, ht => by
    rw [exprKind]
    obtain ⟨hcallee, hargs⟩ := List.forall_mem_append.mp hk
    refine (finds_expr h callee hcallee (typeKnown_of_phrases hcallee)).bind fun _ _ => ?_
    exact (finds_exprs h args hargs).bind fun _ _ => finds_pure ht
  | .named path, expected, hk, ht => by
    rw [exprKind]
    have hpath : (Ty.path path).Known env.symbols := Path.known_of_all (hk (.value path) (.head _))
    cases path.soleName? with
    | some name => exact (finds_useLocal ht name span).bind fun _ hu => finds_pure hu
    | none =>
      refine (finds_ofResult (h.finds_valueType hpath span)).bind fun t hvalue => ?_
      exact finds_merge_pair ht hvalue span _
  | .field object name, expected, hk, ht => by
    rw [exprKind]
    refine (finds_expr h object hk (typeKnown_of_phrases hk)).bind fun e he => ?_
    split
    · exact finds_pure ht
    · refine (finds_ofResult (h.finds_memberType he name span)).bind fun t hfield => ?_
      exact finds_merge_pair ht hfield span _
  | .index value index, expected, hk, ht => by
    rw [exprKind]
    obtain ⟨hvalue, hindex⟩ := List.forall_mem_append.mp hk
    refine (finds_expr h value hvalue (typeKnown_of_phrases hvalue)).bind fun e he => ?_
    refine (finds_expr h index hindex (typeKnown_of_phrases hindex)).bind fun _ _ => ?_
    exact finds_merge_pair ht (Ty.AllBindings.element he) span _
  | .deref value, expected, hk, ht => by
    rw [exprKind]
    refine (finds_expr h value hk (typeKnown_of_phrases hk)).bind fun e he => ?_
    refine (finds_ofResult (pointee_finds he)).bind fun t hpointee => ?_
    exact finds_merge_pair ht hpointee span _
  | .borrow kind value, expected, hk, ht => by
    rw [exprKind]
    have hinside : (expected.pointee?.getD .wildcard).Known env.symbols := by
      cases hp : expected.pointee? with
      | none => exact Ty.allBindings_wildcard
      | some inner => exact ht.pointee? hp
    refine (finds_merge (typeKnown_of_phrases hk) hinside span).bind fun t hm => ?_
    refine (finds_expr h value hk hm).bind fun e he => ?_
    have hborrowed : (Ty.borrow kind e.type).Known env.symbols := Ty.allBindings_borrow.mpr he
    exact finds_merge_pair ht hborrowed span _
  | .cast value target, expected, hk, ht => by
    rw [exprKind]
    obtain ⟨htarget, hvalue⟩ := List.forall_mem_cons.mp hk
    refine (resolveType_finds h span htarget).bind fun t hcast => ?_
    refine (finds_expr h value hvalue (typeKnown_of_phrases hvalue)).bind fun _ _ => ?_
    exact finds_merge_pair ht hcast span _
  | .tuple items, expected, hk, ht => by
    rw [exprKind]
    refine (finds_exprs h items hk).bind fun es hes => ?_
    exact finds_merge_pair ht (tupleType_known hes) span _
  | .literal value, expected, hk, ht => by
    rw [exprKind]
    exact finds_merge_pair ht (Literal.type_known hk) span _
  | .binary op left right, expected, hk, ht => by
    rw [exprKind]
    obtain ⟨hleft, hright⟩ := List.forall_mem_append.mp hk
    refine (finds_expr h left hleft (typeKnown_of_phrases hleft)).bind fun l hl => ?_
    refine (finds_expr h right hright (typeKnown_of_phrases hright)).bind fun r hr => ?_
    refine (finds_ofResult (binaryType_finds hl hr op span)).bind fun t hop => ?_
    exact finds_merge_pair ht hop span _

theorem finds_exprs (h : env.symbols.Closed) : ∀ es : List Expr,
    (∀ a ∈ exprPhrases es, a.Known env.symbols) →
      (exprs env es).Finds env.symbols fun es' => ∀ e ∈ es', TypeKnown env e
  | [], _ => finds_pure (List.forall_mem_nil _)
  | e :: es, hes => by
    obtain ⟨he, hes⟩ := List.forall_mem_append.mp hes
    exact (finds_expr h e he (typeKnown_of_phrases he)).bind fun _ hfirst =>
      (finds_exprs h es hes).bind fun _ hrest =>
        finds_pure (List.forall_mem_cons.mpr ⟨hfirst, hrest⟩)

theorem finds_optional (h : env.symbols.Closed) : ∀ e : Option Expr,
    (∀ a ∈ optionPhrases e, a.Known env.symbols) →
      (optional env e).Finds env.symbols fun _ => True
  | none, _ => finds_pure trivial
  | some e, he => (finds_expr h e he (typeKnown_of_phrases he)).bind fun _ _ => finds_pure trivial

theorem finds_matchArms (h : env.symbols.Closed) (span : Span) {scrutinee : Ty}
    (hs : scrutinee.Known env.symbols) : ∀ (arms : List Arm) {expected : Ty},
      (∀ a ∈ armPhrases arms, a.Known env.symbols) → expected.Known env.symbols →
        (matchArms env span scrutinee arms expected).Finds env.symbols
          fun r => r.2.Known env.symbols
  | [], _, _, ht => finds_pure ht
  | ⟨patterns, guard, code⟩ :: rest, expected, ha, ht => by
    rw [matchArms]
    obtain ⟨harm, hrest⟩ := List.forall_mem_append.mp ha
    obtain ⟨harm, hcode⟩ := List.forall_mem_append.mp harm
    obtain ⟨hpatterns, hguard⟩ := List.forall_mem_append.mp harm
    refine Finds.bind (Q := fun r : Arm × Ty => r.2.Known env.symbols) (.inFrame ?_)
      fun (_, _) ht' => (finds_matchArms h span hs rest hrest ht').bind fun (_, _) hr =>
        finds_pure hr
    refine (finds_eachPattern h hpatterns hs).bind fun _ _ => ?_
    refine (finds_optional h guard hguard).bind fun _ _ => ?_
    refine (finds_merge (typeKnown_of_phrases hcode) ht span).bind fun t hm => ?_
    refine (finds_expr h code hcode hm).bind fun e he => ?_
    exact finds_merge_pair ht he e.span _

end

theorem finds_requireTypeParams {s : Symbols} (bounds : List Bound) :
    (requireTypeParams bounds).Finds s fun _ => True := by
  induction bounds with
  | nil => exact finds_pure trivial
  | cons b rest ih =>
    rw [requireTypeParams]
    cases boundName? b with
    | none => exact ih
    | some found =>
      refine finds_get.bind fun frames _ => ?_
      have hparam := frames.finds_typeParam (P := Binding.Known s) found.2 found.1
      have hfound : (discard (frames.typeParam found.2 found.1)).Finds fun _ => True :=
        hparam.bind fun _ _ => trivial
      exact (finds_ofResult hfound).bind fun _ _ => ih

theorem finds_declareParams {s : Symbols} (params : Params) (span : Span) :
    (declareParams params span).Finds s fun _ => True := by
  have hentered : ∀ f : Frame, f.Known s →
      Frame.Known s { f with typeParams := params.names.reverse ++ f.typeParams } :=
    fun f hf => ⟨hf.locals, hf.aliases⟩
  exact (finds_modifyFrame hentered).bind fun _ _ => finds_requireTypeParams params.bounds

theorem finds_functionArgs (h : env.symbols.Closed) (span : Span) (args : List FunctionArg)
    (ha : ∀ a ∈ args.flatMap FunctionArg.phrases, a.Known env.symbols) :
    (functionArgs env span args).Finds env.symbols fun _ => True := by
  induction args with
  | nil => exact finds_pure trivial
  | cons arg rest ih =>
    obtain ⟨hfirst, hrest⟩ := List.forall_mem_append.mp ha
    obtain ⟨htype, hpattern⟩ := List.forall_mem_cons.mp hfirst
    refine (resolveType_finds h span htype).bind fun t ht => ?_
    refine (finds_pattern h arg.pattern hpattern ht).bind fun _ _ => ?_
    exact (ih hrest).bind fun _ _ => finds_pure trivial

theorem finds_function (h : env.symbols.Closed) (d : Function)
    (hd : ∀ a ∈ d.phrases, a.Known env.symbols) :
    (function env d).Finds env.symbols fun _ => True := by
  obtain ⟨hargs, hret⟩ := List.forall_mem_append.mp hd
  obtain ⟨hret, hcode⟩ := List.forall_mem_cons.mp hret
  refine .inFrame ((finds_declareParams d.params d.span).bind fun _ _ => ?_)
  refine (resolveType_finds h d.span hret).bind fun ret hr => ?_
  refine (finds_functionArgs h d.span d.args (List.forall_mem_append.mp hargs).2).bind fun _ _ => ?_
  cases hc : d.code with
  | none => exact finds_pure trivial
  | some code =>
    rw [hc] at hcode
    exact (finds_expr h code hcode hr).bind fun _ _ => finds_pure trivial

theorem finds_implItems (h : env.symbols.Closed) {scope : Scope} (items : List ImplItem)
    (hi : ∀ pl ∈ items.flatMap (·.member.places scope), pl.phrase.Known env.symbols) :
    (implItems env items).Finds env.symbols fun _ => True := by
  induction items with
  | nil => exact finds_pure trivial
  | cons item rest ih =>
    obtain ⟨hitem, hrest⟩ := List.forall_mem_append.mp hi
    obtain ⟨name, member⟩ := item
    cases member with
    | function body =>
      refine (finds_function h body (Place.forall_phrase.mp hitem)).bind fun _ _ => ?_
      exact (ih hrest).bind fun _ _ => finds_pure trivial
    | const type value => exact (ih hrest).bind fun _ _ => finds_pure trivial
    | type target => exact (ih hrest).bind fun _ _ => finds_pure trivial

theorem finds_implBlock (h : env.symbols.Closed) {scope : Scope} (d : ImplBlock)
    (hd : ∀ pl ∈ d.places scope, pl.phrase.Known env.symbols) :
    (implBlock env d).Finds env.symbols fun _ => True := by
  refine .inFrame ((finds_declareParams d.params d.span).bind fun _ _ => ?_)
  exact (finds_implItems h d.items (List.forall_mem_append.mp hd).2).bind fun _ _ =>
    finds_pure trivial

mutual

theorem finds_module (h : env.symbols.Closed) : ∀ (m : Module) (parents : List String),
    (∀ pl ∈ m.places, pl.phrase.Known env.symbols) →
      (Check.module env parents m).Finds env.symbols fun _ => True
  | ⟨name, uses, held⟩, parents, hm => by
    rw [Check.module]
    have hitems := (List.forall_mem_append.mp hm).2
    refine .isolated ?_ ⟨List.forall_mem_nil _, List.forall_mem_nil _⟩
    exact (finds_items h held parents hitems).bind fun _ _ => finds_pure trivial

theorem finds_item (h : env.symbols.Closed) : ∀ (i : Item) (parents : List String),
    (∀ pl ∈ i.places, pl.phrase.Known env.symbols) →
      (item env parents i).Finds env.symbols fun _ => True
  | .function d, _, hi =>
    (finds_function h d (Place.forall_phrase.mp hi)).bind fun _ _ => finds_pure trivial
  | .impl d, _, hi => by
    rw [item]
    split
    · exact (finds_implBlock h d hi).bind fun _ _ => finds_pure trivial
    · exact finds_pure trivial
  | .module m, _, hi => (finds_module h m _ hi).bind fun _ _ => finds_pure trivial
  | .struct _, _, _ | .enum _, _, _ | .traitDef _, _, _ | .static _, _, _ | .typeAlias _, _, _ =>
    finds_pure trivial

theorem finds_items (h : env.symbols.Closed) : ∀ (is : List Item) (parents : List String),
    (∀ pl ∈ itemPlaces is, pl.phrase.Known env.symbols) →
      (items env parents is).Finds env.symbols fun _ => True
  | [], _, _ => finds_pure trivial
  | i :: is, parents, hi => by
    obtain ⟨hi, his⟩ := List.forall_mem_append.mp hi
    exact (finds_item h i parents hi).bind fun _ _ =>
      (finds_items h is parents his).bind fun _ _ => finds_pure trivial

end

end
end Check

/-- No item that a bound name means is missing when the program is checked. -/
theorem Program.check_finds {source : Module} {p : Program} (h : ofModule source = .ok p)
    (hun : ∀ pl ∈ source.places, pl.phrase.Unbound) (options : CheckOptions) :
    (p.check options).Finds fun _ => True :=
  ((Check.finds_module (symbols_closed h hun) p.root []
    (places_known h hun)).run [] (List.forall_mem_nil _)).1

end BorrowLang
